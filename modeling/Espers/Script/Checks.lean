import Espers.Miner.Bounds
import Espers.Script.Policy
import Espers.Script.Safety

/-!
# Counted and performed signature checks

`GetSigOpCount` is a scan over a script that looks at one opcode and the one before it; the script
machine takes the number of keys from its stack.

* `FollowsPush last s` : when the opcode before was `OP_1` to `OP_16` and was executed, its number
  is on the top of the stack.
* `evalCheckSigs_le` : **a script makes no more calls of `CheckSig` than the accurate count says**,
  on whatever stack it runs.
* `lastPush_of_pushOnly` : the redeem script that is evaluated is the one that is counted, or fails
  at once.
* `checkSigs_le` : the calls that `VerifyScript` makes.
* `block_checkSigs_le` : the calls for all the inputs of a block.
-/

namespace Espers

open Nat hiding add
open Exec List

variable {E : ScriptEnv} {c : EvalContext} {s : Machine} {last opcode : UInt8}

/-! ### The calls of one script -/

/-- When the opcode before was `OP_1` to `OP_16` and was executed, its number is on the top of the
stack. -/
def FollowsPush (last : UInt8) (s : Machine) : Prop :=
  0x51 ≤ last.toNat → last.toNat ≤ 0x60 → s.vfExec.all id = true →
    ∃ rest, s.stack = bnGetvch (last.toNat - 0x50 : ℕ) :: rest

theorem needs_ok {n : ℕ} (h : n ≤ s.stack.length) : needs n s = .ok () s := by
  rw [needs, get_bind_apply, returnIf, if_neg (by simpa using h)]
  rfl

variable {vch : Valtype} {rest : List Valtype}

theorem stacktop_one (h : s.stack = vch :: rest) : stacktop 1 s = .ok vch s := by
  rw [stacktop, get_bind_apply, h]
  rfl

theorem castToBigNum_ok {nMaxNumSize : ℕ} (h : vch.length ≤ nMaxNumSize) :
    castToBigNum vch nMaxNumSize s = .ok (bnSetvch vch) s := by
  rw [castToBigNum, if_neg (by omega)]
  rfl

theorem checkMultiSig_accurate {n : ℕ} (fVerify : Bool) (hn : n ≤ 16)
    (hs : s.stack = bnGetvch n :: rest) :
    (finalState (checkMultiSig E c fVerify s)).nCheckSig ≤ s.nCheckSig + n := by
  have hlen : (bnGetvch n).length ≤ 4 := by
    have := length_bnGetvch_le (n := (n : ℤ)) (k := 1) (by omega)
    omega
  have hint : getint (n : ℤ) = n := by
    unfold getint
    omega
  have hrun : checkMultiSig E c fVerify s = checkMultiSigKeys E c fVerify n s := by
    rw [checkMultiSig, bind_of_ok (needs_ok (by rw [hs]; simp)), bind_of_ok (stacktop_one hs),
      bind_of_ok (castToBigNum_ok hlen), bnSetvch_bnGetvch, hint]
  rw [hrun]
  exact ((checkMultiSigKeys_costs fVerify n) s).2.2.trans (by omega)

/-- What an instruction does to the calls, and what it leaves for the next one. -/
structure Counted (last opcode : UInt8) (s : Machine) (r : EStateM.Result ScriptStop Machine Unit) :
    Prop where
  calls : (finalState r).nCheckSig ≤ s.nCheckSig + sigOpWeight true last opcode
  follows : ∀ t, r = .ok () t → FollowsPush opcode t

/-- The stack and the conditionals are the same, and so is the number of calls. -/
def SameStack (s t : Machine) : Prop := t.stack = s.stack ∧ t.vfExec = s.vfExec ∧
    t.nCheckSig = s.nCheckSig

variable {t : Machine}

theorem FollowsPush.of_same (h : FollowsPush last s) (hs : SameStack s t) : FollowsPush last t := by
  rw [FollowsPush, hs.1, hs.2.1]
  exact h

theorem Counted.before {x y : ScriptM Unit} (h : FollowsPush last s)
    (hx : ∀ s, SameStack s (finalState (x s)))
    (hy : ∀ s, FollowsPush last s → Counted last opcode s (y s)) :
    Counted last opcode s ((x >>= fun _ => y) s) := by
  have hsame := hx s
  cases hxs : x s with
  | error e t =>
    rw [hxs] at hsame
    rw [bind_of_error hxs]
    exact ⟨hsame.2.2.le.trans (le_add_right _ _), nofun⟩
  | ok a t =>
    rw [hxs] at hsame
    rw [bind_of_ok hxs]
    have hcounted := hy t (h.of_same hsame)
    refine ⟨?_, hcounted.follows⟩
    rw [← show t.nCheckSig = s.nCheckSig from hsame.2.2]
    exact hcounted.calls

theorem Counted.after {x y : ScriptM Unit} (hx : Counted last opcode s (x s))
    (hy : ∀ s, SameStack s (finalState (y s))) : Counted last opcode s ((x >>= fun _ => y) s) := by
  cases hxs : x s with
  | error e t =>
    rw [hxs] at hx
    rw [bind_of_error hxs]
    exact ⟨hx.calls, nofun⟩
  | ok a t =>
    rw [hxs] at hx
    rw [bind_of_ok hxs]
    have hsame := hy t
    refine ⟨hsame.2.2.le.trans hx.calls, fun t' h => ?_⟩
    rw [h] at hsame
    exact (hx.follows t rfl).of_same hsame

theorem returnIf_sameStack (b : Bool) (s : Machine) : SameStack s (finalState (returnIf b s)) := by
  cases b <;> exact ⟨rfl, rfl, rfl⟩

theorem countOpcode_sameStack (opcode : UInt8) (s : Machine) :
    SameStack s (finalState (countOpcode opcode s)) := by
  unfold countOpcode
  split_ifs
  · rw [addOps, modify_bind_apply, get_bind_apply]
    exact returnIf_sameStack _ _
  · exact ⟨rfl, rfl, rfl⟩

theorem opcodeOf_number (h : 0x51 ≤ opcode.toNat) (h' : opcode.toNat ≤ 0x60) :
    opcodeOf opcode = .opN (opcode.toNat - 0x50 : ℕ) := by
  have hall : ∀ n, 0x51 ≤ n → n ≤ 0x60 → opcodeOf (UInt8.ofNat n) = .opN (n - 0x50 : ℕ) := by
    intro n hn hn'
    interval_cases n <;> rfl
  have hop := hall opcode.toNat h h'
  rwa [UInt8.ofNat_toNat] at hop

/-- The opcodes whose count depends on the one before. -/
theorem opcodeOf_multiSig (opcode : UInt8) :
    (opcode.toNat = 0xae ∨ opcode.toNat = 0xaf) ↔ ∃ fVerify, opcodeOf opcode =
    .opCheckMultiSig fVerify := by
  constructor
  · rintro (h | h)
    · obtain rfl : opcode = 0xae := UInt8.toNat_inj.mp h
      exact ⟨false, rfl⟩
    · obtain rfl : opcode = 0xaf := UInt8.toNat_inj.mp h
      exact ⟨true, rfl⟩
  · rintro ⟨fVerify, h⟩
    have hall : ∀ n < 256, (match opcodeOf (UInt8.ofNat n) with
        | .opCheckMultiSig _ => n == 0xae || n == 0xaf
        | _ => true) = true := by
      decide +kernel
    have hop := hall opcode.toNat opcode.toNat_lt
    rw [UInt8.ofNat_toNat, h] at hop
    simpa using hop

theorem sigOpWeight_of_not_multiSig (h : ¬ (opcode.toNat = 0xae ∨ opcode.toNat = 0xaf))
    (last : UInt8) : sigOpWeight true last opcode = sigOpWeight false 0xff opcode := by
  rw [sigOpWeight, sigOpWeight, if_neg h, if_neg h]

/-- An opcode makes the calls that the accurate count says, when it is executed. -/
theorem execOpcode_accurate (h : FollowsPush last s)
    (hexec : opcode.toNat ≤ 0x68 ∨ s.vfExec.all id = true) (fExec : Bool) :
    (finalState (execOpcode E c fExec (opcodeOf opcode) s)).nCheckSig ≤
      s.nCheckSig + sigOpWeight true last opcode := by
  by_cases hmulti : opcode.toNat = 0xae ∨ opcode.toNat = 0xaf
  · obtain ⟨fVerify, hop⟩ := (opcodeOf_multiSig opcode).mp hmulti
    have hweight : sigOpWeight true last opcode =
        if 0x51 ≤ last.toNat ∧ last.toNat ≤ 0x60 then last.toNat - 0x50 else 20 := by
      rw [sigOpWeight, if_neg (by omega), if_pos hmulti]
      simp only [true_and]
    rw [hop, hweight]
    split_ifs with hlast
    · obtain ⟨rest, hst⟩ := h hlast.1 hlast.2 (hexec.resolve_left (by omega))
      exact checkMultiSig_accurate fVerify (by omega) hst
    · exact (checkMultiSig_costs fVerify s).2.2
  · rw [sigOpWeight_of_not_multiSig hmulti, ← (opcodeOf_spec opcode).2]
    exact (execOpcode_steps fExec (opcodeOf opcode) s).calls

/-- **One instruction**: it makes the calls that the accurate count says, and a number is on the top
of the stack behind it. -/
theorem execInstruction_counted (vch : Valtype) (h : FollowsPush last s) :
    Counted last opcode s (execInstruction E c opcode vch s) := by
  rw [execInstruction, get_bind_apply]
  by_cases hpush : (s.vfExec.all id && decide (opcode.toNat ≤ 0x4e)) = true
  · rw [if_pos hpush]
    simp only [Bool.and_eq_true, decide_eq_true_eq] at hpush
    exact ⟨le_add_right _ _, fun t _ hlow => by omega⟩
  · rw [if_neg hpush]
    by_cases hrun :
      (s.vfExec.all id || decide (0x63 ≤ opcode.toNat) && decide (opcode.toNat ≤ 0x68)) = true
    · rw [if_pos hrun]
      simp only [Bool.or_eq_true, Bool.and_eq_true, decide_eq_true_eq] at hrun
      refine ⟨execOpcode_accurate h (by tauto) _, fun t ht hlow hhigh _ => ?_⟩
      rw [opcodeOf_number hlow hhigh] at ht
      cases ht
      exact ⟨s.stack, rfl⟩
    · rw [if_neg hrun]
      simp only [Bool.or_eq_true, not_or] at hrun
      refine ⟨le_add_right _ _, fun t ht _ _ hall => ?_⟩
      cases ht
      exact absurd hall hrun.1

/-- **One pass of the loop.** -/
theorem evalStep_counted {pc : CScript} (h : FollowsPush last s)
    (hget : getOp s.pc = some (opcode, vch, pc)) : Counted last opcode s (evalStep E c s) := by
  rw [evalStep_eq hget]
  have hpc : FollowsPush last { s with pc := pc } := h
  have hafter : Counted last opcode { s with pc := pc }
    (afterRead E c opcode vch { s with pc := pc }) := by
    refine Counted.before hpc (returnIf_sameStack _) fun s h => ?_
    refine Counted.before h (countOpcode_sameStack _) fun s h => ?_
    refine Counted.before h (returnIf_sameStack _) fun s h =>
      (execInstruction_counted vch h).after fun s => ?_
    exact returnIf_sameStack _ _
  exact ⟨hafter.calls, hafter.follows⟩

/-- The loop makes no more calls than the count of what is left of the script. -/
theorem evalLoop_counted (k : ℕ) (h : FollowsPush last s) :
    (finalState (evalLoop E c k s)).nCheckSig ≤ s.nCheckSig + sigOpLoop true k last s.pc := by
  induction k generalizing s last with
  | zero => exact le_rfl
  | succ k ih =>
    by_cases hnil : s.pc = []
    · rw [evalLoop_nil hnil]
      exact le_add_right _ _
    rw [evalLoop_succ hnil, sigOpLoop]
    cases hget : getOp s.pc with
    | none =>
      rw [bind_of_error (evalStep_of_none hget)]
      exact le_rfl
    | some r =>
      obtain ⟨opcode, vch, pc⟩ := r
      simp only
      have hcounted := evalStep_counted (E := E) (c := c) h hget
      have hpc := (evalStep_spec (E := E) (c := c) hget).1
      cases hstep : evalStep E c s with
      | error e t =>
        rw [hstep] at hcounted
        rw [bind_of_error hstep]
        exact hcounted.calls.trans (by omega)
      | ok a t =>
        rw [hstep] at hcounted hpc
        rw [bind_of_ok hstep]
        have hrest := ih (hcounted.follows t rfl)
        rw [show t.pc = pc from hpc] at hrest
        have hcalls : t.nCheckSig ≤ s.nCheckSig + sigOpWeight true last opcode := hcounted.calls
        omega

/-- The calls of `CheckSig` that an evaluation makes. -/
def evalCheckSigs (E : ScriptEnv) (c : EvalContext) (eval : List Valtype × CScript) : ℕ :=
  if eval.2.length > 10000 then 0 else (finalState (runScript E c eval.1 eval.2)).nCheckSig

/-- **A script makes no more calls of `CheckSig` than the accurate count says**, on any stack. -/
theorem evalCheckSigs_le (E : ScriptEnv) (c : EvalContext) (stack : List Valtype)
    (script : CScript) : evalCheckSigs E c (stack, script) ≤ getSigOpCount true script := by
  unfold evalCheckSigs
  split_ifs
  · exact zero_le _
  · have hstart : FollowsPush 0xff (.start stack script) := fun _ hle => absurd hle (by decide)
    exact (evalLoop_counted script.length hstart).trans (zero_add _).le

theorem sigOpWeight_le (last last' opcode : UInt8) :
    sigOpWeight true last opcode ≤ sigOpWeight false last' opcode := by
  unfold sigOpWeight
  simp only [Bool.false_eq_true, false_and, if_false]
  split_ifs <;> omega

theorem sigOpLoop_le (k : ℕ) (last last' : UInt8) (script : CScript) :
    sigOpLoop true k last script ≤ sigOpLoop false k last' script := by
  induction k generalizing last last' script with
  | zero => exact le_rfl
  | succ k ih =>
    rw [sigOpLoop, sigOpLoop]
    cases getOp script with
    | none => exact le_rfl
    | some r => exact Nat.add_le_add (sigOpWeight_le _ _ _) (ih _ _ _)

theorem getSigOpCount_accurate_le (script : CScript) :
    getSigOpCount true script ≤ getSigOpCount false script :=
  sigOpLoop_le _ _ _ _

/-! ### The redeem script -/

/-- The top of the stack is no script with more signature operations than `data`. -/
def TopCounts (data : Valtype) (stack : List Valtype) : Prop :=
  ∀ top ∈ stack.head?, getSigOpCount true top ≤ getSigOpCount true data

/-- What an opcode below `OP_NOP` pushes is one byte that cannot be read as a script with signature
operations. -/
theorem opN_counts {z : ℤ} (hop : opcode.toNat ≤ 0x60) (h : opcodeOf opcode = .opN z) :
    getSigOpCount true (bnGetvch z) = 0 := by
  have hall : ∀ n < 0x61, (match opcodeOf (UInt8.ofNat n) with
      | .opN z => -1 ≤ z && z ≤ 16
      | _ => true) = true := by
    decide
  have hz := hall opcode.toNat (by omega)
  rw [UInt8.ofNat_toNat, h] at hz
  simp only [Bool.and_eq_true, decide_eq_true_eq] at hz
  by_cases hneg : z = -1
  · subst hneg
    rfl
  by_cases hzero : z = 0
  · subst hzero
    rfl
  · obtain ⟨n, rfl⟩ := Int.eq_ofNat_of_zero_le (show 0 ≤ z by omega)
    rw [bnGetvch_small (by omega) (by omega)]
    have hsmall : ∀ n, 0 < n → n ≤ 16 → getSigOpCount true [UInt8.ofNat n] = 0 := by
      intro n hn hn'
      interval_cases n <;> rfl
    exact hsmall n (by omega) (by omega)

theorem opcodeOf_push (h : opcode.toNat ≤ 0x60) (h' : 0x4e < opcode.toNat) :
    (∃ z, opcodeOf opcode = .opN z) ∨ opcodeOf opcode = .invalid := by
  have hall : ∀ n < 0x61, 0x4e < n → (match opcodeOf (UInt8.ofNat n) with
      | .opN _ | .invalid => true
      | _ => false) = true := by
    decide
  have hop := hall opcode.toNat (by omega) h'
  rw [UInt8.ofNat_toNat] at hop
  cases h : opcodeOf opcode with
  | opN z => exact .inl ⟨z, rfl⟩
  | invalid => exact .inr rfl
  | _ =>
    rw [h] at hop
    cases hop

theorem returnIf_eq_ok {b : Bool} {u : Unit} : returnIf b s = .ok u t ↔ b = false ∧ t = s := by
  cases b with
  | true => exact ⟨nofun, nofun⟩
  | false =>
    refine ⟨?_, ?_⟩
    · rintro ⟨⟩
      exact ⟨rfl, rfl⟩
    · rintro ⟨-, rfl⟩
      rfl

theorem countOpcode_of_le (hop : opcode.toNat ≤ 0x60) : countOpcode opcode s = .ok () s := by
  rw [countOpcode, if_neg (by omega)]
  rfl

theorem execInstruction_of_evalStep {pc : CScript}
    (hget : getOp s.pc = some (opcode, vch, pc)) (hop : opcode.toNat ≤ 0x60)
    (h : evalStep E c s = .ok () t) : vch.length ≤ maxScriptElementSize ∧
      execInstruction E c opcode vch { s with pc := pc } = .ok () t := by
  rw [evalStep_eq hget, afterRead, bind_eq_ok] at h
  obtain ⟨_, s1, hs1, h⟩ := h
  obtain ⟨hsize, rfl⟩ := returnIf_eq_ok.mp hs1
  rw [bind_of_ok (countOpcode_of_le hop), bind_eq_ok] at h
  obtain ⟨_, s2, hs2, h⟩ := h
  obtain ⟨-, rfl⟩ := returnIf_eq_ok.mp hs2
  obtain ⟨_, s3, hs3, h⟩ := bind_eq_ok.mp h
  obtain ⟨-, rfl⟩ := returnIf_eq_ok.mp h
  exact ⟨by simpa using hsize, hs3⟩

/-- One push outside of conditionals. -/
theorem evalStep_push {pc : CScript}
    (hget : getOp s.pc = some (opcode, vch, pc)) (hop : opcode.toNat ≤ 0x60) (hexec : s.vfExec = [])
    (h : evalStep E c s = .ok () t) : t.pc = pc ∧ t.vfExec = [] ∧ TopCounts vch t.stack := by
  have hpc := (evalStep_spec (E := E) (c := c) hget).1
  rw [h] at hpc
  obtain ⟨-, hs3⟩ := execInstruction_of_evalStep hget hop h
  refine ⟨hpc, ?_⟩
  rw [execInstruction, get_bind_apply] at hs3
  simp only [hexec, all_nil, Bool.true_and, Bool.true_or, decide_eq_true_eq] at hs3
  split_ifs at hs3 with hpush
  · cases hs3
    refine ⟨rfl, ?_⟩
    rintro _ ⟨⟩
    exact le_rfl
  · have hlow : 0x4e < opcode.toNat := by omega
    rcases opcodeOf_push hop hlow with ⟨z, hz⟩ | hinv
    · rw [hz] at hs3
      cases hs3
      refine ⟨rfl, ?_⟩
      rintro _ ⟨⟩
      rw [opN_counts hop hz]
      exact zero_le _
    · rw [hinv] at hs3
      cases hs3

/-- **The redeem script that is evaluated has no more signature operations than the one that is
counted.** -/
theorem lastPush_of_pushOnly (k : ℕ) {data : Valtype} (hexec : s.vfExec = [])
    (htop : TopCounts data s.stack) (hpush : pushOnlyLoop k s.pc = true)
    (h : evalLoop E c k s = .ok () t) : ∃ data', lastPush k data s.pc = some data' ∧
    TopCounts data' t.stack := by
  induction k generalizing s data with
  | zero =>
    cases h
    cases hpc : t.pc with
    | nil => exact ⟨data, rfl, htop⟩
    | cons op script =>
      rw [hpc] at hpush
      cases hpush
  | succ k ih =>
    by_cases hnil : s.pc = []
    · rw [evalLoop_nil hnil] at h
      cases h
      rw [hnil]
      exact ⟨data, rfl, htop⟩
    rw [evalLoop_succ hnil] at h
    obtain ⟨_, s', hstep, h⟩ := bind_eq_ok.mp h
    have hne : s.pc = [] → False := hnil
    rw [pushOnlyLoop] at hpush
    · rw [lastPush]
      · cases hget : getOp s.pc with
        | none =>
          rw [hget] at hpush
          cases hpush
        | some r =>
          simp only [hget] at hpush ⊢
          split_ifs at hpush with hop
          rw [if_neg hop]
          obtain ⟨hpc, hexec', htop'⟩ := evalStep_push hget (by omega) hexec hstep
          rw [← hpc] at hpush ⊢
          exact ih hexec' htop' hpush h
      · exact hne
    · exact hne

/-! ### The calls for an input -/

/-- The calls of `CheckSig` that `VerifyScript` makes. -/
def checkSigs (E : ScriptEnv) (c : EvalContext) (scriptSig scriptPubKey : CScript) : ℕ :=
  ((finalState (verifyScript E c scriptSig scriptPubKey [])).map (evalCheckSigs E c)).sum

/-- The redeem script, which `VerifyScript` finds on its stack. -/
theorem redeem_le {scriptSig : CScript} {ser : Valtype}
    (hsig : evalScript E c [] scriptSig = (true, ser :: rest)) (hpush : isPushOnly scriptSig = true)
    {scriptPubKey : CScript} (hp2sh : isPayToScriptHash scriptPubKey = true) :
    evalCheckSigs E c (rest, ser) ≤ getScriptSigOpCount scriptPubKey scriptSig := by
  refine (evalCheckSigs_le E c rest ser).trans ?_
  unfold evalScript at hsig
  by_cases hlen : scriptSig.length > 10000
  · rw [if_pos hlen] at hsig
    cases hsig
  rw [if_neg hlen] at hsig
  cases hrun : runScript E c [] scriptSig with
  | error e t =>
    rw [hrun] at hsig
    cases hsig
  | ok u t =>
    rw [hrun] at hsig
    simp only [Prod.mk.injEq] at hsig
    obtain ⟨data, hdata, htop⟩ := lastPush_of_pushOnly scriptSig.length (s := .start [] scriptSig)
      rfl (show TopCounts [] [] from nofun) hpush hrun
    rw [getScriptSigOpCount, hp2sh, show (.start [] scriptSig : Machine).pc =
      scriptSig from rfl] at *
    simp only [hdata]
    exact htop ser (by rw [hsig.2]; rfl)

/-- **The calls that `VerifyScript` makes are counted.** -/
theorem checkSigs_le (E : ScriptEnv) (c : EvalContext) (scriptSig scriptPubKey : CScript) :
    checkSigs E c scriptSig scriptPubKey ≤ getSigOpCount false scriptSig + getSigOpCount false
    scriptPubKey +
      if isPayToScriptHash scriptPubKey then getScriptSigOpCount scriptPubKey scriptSig else 0 := by
  have hfirst := (evalCheckSigs_le E c [] scriptSig).trans (getSigOpCount_accurate_le scriptSig)
  unfold checkSigs verifyScript
  rw [callEvalScript_bind]
  rcases hsig : evalScript E c [] scriptSig with ⟨_ | _, stackCopy⟩
  · simp only [Bool.not_false]
    exact (show _ ≤ getSigOpCount false scriptSig by simpa [finalState] using hfirst).trans
      (by omega)
  · have hsecond :=
      (evalCheckSigs_le E c stackCopy scriptPubKey).trans (getSigOpCount_accurate_le scriptPubKey)
    have htwo : (([([], scriptSig), (stackCopy, scriptPubKey)] : List (List Valtype × CScript)).map
        (evalCheckSigs E c)).sum ≤ getSigOpCount false scriptSig + getSigOpCount false
        scriptPubKey := by
      simp only [map_cons, map_nil, sum_cons, sum_nil]
      omega
    simp only [Bool.not_true, Bool.false_eq_true, if_false, callEvalScript_bind]
    rcases evalScript E c stackCopy scriptPubKey with ⟨fOk, stack⟩
    by_cases hfail : (!fOk || !trueOnTop stack) = true
    · simp only [hfail]
      exact htwo.trans (le_add_right _ _)
    simp only [hfail]
    cases hp2sh : isPayToScriptHash scriptPubKey with
    | false => exact htwo.trans (le_add_right _ _)
    | true =>
      cases hpush : isPushOnly scriptSig with
      | false => exact htwo.trans (le_add_right _ _)
      | true =>
        cases stackCopy with
        | nil => exact htwo.trans (le_add_right _ _)
        | cons ser rest =>
          have hthird := redeem_le hsig hpush hp2sh
          have hthree : ((([([], scriptSig), (ser :: rest, scriptPubKey)] ++ [(rest, ser)] :
              List (List Valtype × CScript))).map (evalCheckSigs E c)).sum ≤
              getSigOpCount false scriptSig + getSigOpCount false scriptPubKey +
                getScriptSigOpCount scriptPubKey scriptSig := by
            rw [map_append, sum_append_nat, map_singleton, sum_singleton]
            exact Nat.add_le_add htwo hthird
          exact hthree

/-! ### The calls for a block -/

/-- The calls of `CheckSig` for the inputs of a transaction, when all of them are verified. -/
def txCheckSigs (S : ScriptEnv) (flags : ℕ) (tx : CTransaction) (inputs : MapPrevTx) : ℕ :=
  if tx.isCoinBase then 0
  else (tx.vin.mapIdx fun i txin =>
    match getOutputFor txin inputs with
    | .ok prevout => checkSigs S ⟨tx, i, flags, 0⟩ txin.scriptSig prevout.scriptPubKey
    | .error _ => 0).sum

/-- The count of the scripts that a transaction spends. -/
def spentSigOps (tx : CTransaction) (inputs : MapPrevTx) : ℕ :=
  if tx.isCoinBase then 0
  else (tx.vin.map fun txin =>
    match getOutputFor txin inputs with
    | .ok prevout => getSigOpCount false prevout.scriptPubKey
    | .error _ => 0).sum

/-- The calls of `CheckSig` for the transactions of a block, with the previous transactions of
each. -/
def blockCheckSigs (S : ScriptEnv) (flags : ℕ) (txs : List (CTransaction × MapPrevTx)) : ℕ :=
  (txs.map fun x => txCheckSigs S flags x.1 x.2).sum

/-- What `ConnectBlock` counts. -/
def blockSigOps (txs : List (CTransaction × MapPrevTx)) : ℕ :=
  (txs.map fun x => getLegacySigOpCount x.1 + getP2SHSigOpCount x.1 x.2).sum

/-- What `ConnectBlock` does not count. -/
def blockSpentSigOps (txs : List (CTransaction × MapPrevTx)) : ℕ :=
  (txs.map fun x => spentSigOps x.1 x.2).sum

/-- The calls for the inputs of a transaction. -/
theorem txCheckSigs_le (S : ScriptEnv) (flags : ℕ) (tx : CTransaction) (inputs : MapPrevTx) :
    txCheckSigs S flags tx inputs ≤
      getLegacySigOpCount tx + getP2SHSigOpCount tx inputs + spentSigOps tx inputs := by
  unfold txCheckSigs getLegacySigOpCount getP2SHSigOpCount spentSigOps
  split_ifs
  · exact zero_le _
  · -- input by input, whatever the number of the first one is
    have hsum : ∀ (vin : List CTxIn) (k : ℕ), ((vin.mapIdx fun i txin =>
        match getOutputFor txin inputs with
        | .ok prevout => checkSigs S ⟨tx, k + i, flags, 0⟩ txin.scriptSig prevout.scriptPubKey
        | .error _ => 0).sum) ≤ (vin.map fun txin => getSigOpCount false txin.scriptSig).sum +
          (vin.map fun txin =>
            match getOutputFor txin inputs with
            | .ok prevout =>
              if isPayToScriptHash prevout.scriptPubKey then
                getScriptSigOpCount prevout.scriptPubKey txin.scriptSig
              else 0
            | .error _ => 0).sum +
          (vin.map fun txin =>
            match getOutputFor txin inputs with
            | .ok prevout => getSigOpCount false prevout.scriptPubKey
            | .error _ => 0).sum := by
      intro vin
      induction vin with
      | nil => exact fun _ => le_rfl
      | cons txin vin ih =>
        intro k
        have hrest := ih (k + 1)
        simp only [mapIdx_cons, map_cons, sum_cons, add_zero] at hrest ⊢
        simp only [add_assoc, add_comm 1] at hrest
        cases getOutputFor txin inputs with
        | error e =>
          simp only
          omega
        | ok prevout =>
          have hin := checkSigs_le S ⟨tx, k, flags, 0⟩ txin.scriptSig prevout.scriptPubKey
          simp only
          omega
    have htx := hsum tx.vin 0
    simp only [zero_add] at htx
    refine htx.trans ?_
    exact Nat.add_le_add_right (Nat.add_le_add_right (Nat.le_add_right _ _) _) _

/-- **The calls for a block** are counted, but for those in the scripts that are spent. -/
theorem block_checkSigs_le (S : ScriptEnv) (flags : ℕ) (txs : List (CTransaction × MapPrevTx)) :
    blockCheckSigs S flags txs ≤ blockSigOps txs + blockSpentSigOps txs := by
  induction txs with
  | nil => exact le_rfl
  | cons x txs ih =>
    have htx := txCheckSigs_le S flags x.1 x.2
    simp only [blockCheckSigs, blockSigOps, blockSpentSigOps, map_cons, sum_cons] at ih ⊢
    omega

section Connect

variable {C : Env} {w : World} {ctx : Ctx} {p : Uint256} {e : CBlockIndex} {flags : ℕ}
  {t t' : BlockTally} {tx : CTransaction} {vtx : List CTransaction}

theorem connectTransaction_counts (hC : C.CountsSigOps)
    (h : connectTransaction C w ctx p e flags t tx = .ok t') : ∃ inputs,
      (tx.isCoinBase = false → ∃ q, fetchInputs w ctx w.txdb q true false tx = .ok inputs) ∧
      t'.nSigOps = t.nSigOps + (getLegacySigOpCount tx + getP2SHSigOpCount tx inputs) ∧
      t'.nSigOps ≤ w.maxBlockSigops := by
  cases hcb : tx.isCoinBase with
  | true =>
    simp only [connectTransaction, hcb, if_true, connectCoinBase, except_bind_eq_ok, rejectIf_eq_ok, exists_const, hC.legacy, Except.ok.injEq, not_lt] at h
    obtain ⟨-, hle, _, ⟨_, -, rfl⟩, rfl⟩ := h
    exact ⟨∅, fun h => Bool.noConfusion h, by rw [getP2SHSigOpCount, if_pos hcb]; rfl, hle⟩
  | false =>
    simp only [connectTransaction, hcb, Bool.false_eq_true, if_false, connectSpender,
      except_bind_eq_ok, rejectIf_eq_ok, exists_const, hC.legacy, hC.p2sh,
      Except.ok.injEq, not_lt, BlockTally.addValues] at h
    obtain ⟨-, -, _, ⟨inputs, hfetch, hle, _, -, _, -, _, ⟨-, -, rfl⟩, _, -, rfl⟩, rfl⟩ := h
    exact ⟨inputs, fun _ => ⟨_, hfetch⟩, add_assoc _ _ _, hle⟩

/-- What `ConnectBlock` counts. -/
theorem connectTransactions_counts (hC : C.CountsSigOps) (ht : t.nSigOps ≤ w.maxBlockSigops)
    (h : connectTransactions C w ctx p e flags t vtx = .ok t') :
    ∃ txs : List (CTransaction × MapPrevTx), txs.map Prod.fst = vtx ∧
      (∀ x ∈ txs, x.1.isCoinBase = false → ∃ q, fetchInputs w ctx w.txdb q true false x.1 =
      .ok x.2) ∧ t'.nSigOps = t.nSigOps + blockSigOps txs ∧ t'.nSigOps ≤ w.maxBlockSigops := by
  induction vtx generalizing t with
  | nil =>
    cases h
    exact ⟨[], rfl, fun _ hx => absurd hx not_mem_nil, rfl, ht⟩
  | cons tx vtx ih =>
    obtain ⟨t1, htx, h⟩ := except_bind_eq_ok.1 h
    obtain ⟨inputs, hfetch, hcount, hle⟩ := connectTransaction_counts hC htx
    obtain ⟨txs, hfst, hfetched, hsum, hle'⟩ := ih hle h
    refine ⟨(tx, inputs) :: txs, by rw [map_cons, hfst], ?_, ?_, hle'⟩
    · rintro x (_ | ⟨_, hmem⟩)
      · exact hfetch
      · exact hfetched x hmem
    · rw [hsum, hcount, blockSigOps, blockSigOps, map_cons, sum_cons, add_assoc]

end Connect

/-- **Signature operations are counted for the work they stand for.**  A script makes no more calls
of `CheckSig` than its accurate count, on any stack and under any flags; `VerifyScript` makes no
more than the counts of the two scripts and of the redeem script; and the transactions that
`ConnectBlock` connects make no more than it has counted, which is limited, and the counts of the
scripts that they spend. -/
theorem sigops_bound_checks (S : ScriptEnv) :
    (∀ c stack script, evalCheckSigs S c (stack, script) ≤ getSigOpCount true script) ∧
    (∀ c scriptSig scriptPubKey, checkSigs S c scriptSig scriptPubKey ≤
      getSigOpCount false scriptSig + getSigOpCount false scriptPubKey +
        if isPayToScriptHash scriptPubKey then getScriptSigOpCount scriptPubKey scriptSig else 0) ∧
    ∀ (C : Env) w ctx p e flags pos vtx t, C.CountsSigOps →
      connectTransactions C w ctx p e flags (.init pos) vtx = .ok t →
      ∃ txs : List (CTransaction × MapPrevTx), txs.map Prod.fst = vtx ∧
        (∀ x ∈ txs, x.1.isCoinBase = false → ∃ q, fetchInputs w ctx w.txdb q true false x.1 =
        .ok x.2) ∧ t.nSigOps = blockSigOps txs ∧ t.nSigOps ≤ w.maxBlockSigops ∧
        blockCheckSigs S flags txs ≤ t.nSigOps + blockSpentSigOps txs := by
  refine ⟨evalCheckSigs_le S, checkSigs_le S, fun C w ctx p e flags pos vtx t hC h => ?_⟩
  obtain ⟨txs, hfst, hfetched, hsum, hle⟩ := connectTransactions_counts hC (zero_le _) h
  have hcount : t.nSigOps = blockSigOps txs := by rw [hsum, BlockTally.init, zero_add]
  exact ⟨txs, hfst, hfetched, hcount, hle, hcount ▸ block_checkSigs_le S flags txs⟩

/-! ### A block of many checks -/

/-- A script that is good when a signature is not: `0 <key> OP_CHECKSIG OP_NOT`. -/
def unsignedKey : Valtype := 2 :: replicate 32 0
def unsignedScript : CScript := 0x00 :: (pushData unsignedKey ++ [0xac, 0x91])

/-- A transaction with `n` outputs of the script, and one that spends those of two such. -/
def unsignedFrom (nTime n : ℕ) : CTransaction :=
  ⟨1, nTime, [⟨⟨7, 0⟩, [], uintMax⟩], replicate n ⟨1, unsignedScript⟩, 0⟩
def unsignedIn (i : ℕ) : CTxIn := ⟨⟨if i % 2 = 0 then 1 else 2, i / 2⟩, [], uintMax⟩
def unsignedTo (n : ℕ) : CTransaction :=
  ⟨1, 0, (List.range (2 * n)).map unsignedIn, [⟨1, [0x51]⟩], 0⟩
def unsignedInputs (n : ℕ) : MapPrevTx :=
  AList.insert 1 (.ofOutputs .null n, unsignedFrom 1 n)
    ((∅ : MapPrevTx).insert 2 (.ofOutputs .null n, unsignedFrom 2 n))

section Unsigned

variable {S : ScriptEnv} {txTo : CTransaction} {nIn n i : ℕ}

theorem callCheckSig_unsigned (scriptCode : CScript) (s : Machine) :
    callCheckSig S ⟨txTo, nIn, 123, 0⟩ [] unsignedKey scriptCode s =
      .ok false { s with nCheckSig := s.nCheckSig + 1 } := by
  have hencoded : (checkSigEncoding [] 123 && isCompressedOrUncompressedPubKey unsignedKey) =
    true := rfl
  have hsig : checkSig S [] unsignedKey scriptCode txTo nIn 0 = false := rfl
  rw [callCheckSig, if_pos hencoded, modify_bind_apply, hsig]
  rfl

/-- The state before `OP_CHECKSIG`. -/
def unsignedMachine : Machine := ⟨[unsignedKey, []], [], [], 1, [0x91], unsignedScript, 0⟩

theorem execOpcode_unsigned : execOpcode S ⟨txTo, nIn, 123, 0⟩ true (.opCheckSig false)
    unsignedMachine = .ok () ⟨[[]], [], [], 1, [0x91], unsignedScript, 1⟩ := by
  have hneeds : needs 2 unsignedMachine = .ok () unsignedMachine := rfl
  have hsig : stacktop 2 unsignedMachine = .ok [] unsignedMachine := rfl
  have hkey : stacktop 1 unsignedMachine = .ok unsignedKey unsignedMachine := rfl
  have hstrict : strictEncoding ⟨txTo, nIn, 123, 0⟩ [] unsignedKey unsignedMachine =
      .ok () unsignedMachine := by
    have hgood : (!checkSigEncoding [] 123 || !isCompressedOrUncompressedPubKey unsignedKey) =
      false := rfl
    rw [strictEncoding, hgood, Bool.and_false]
    rfl
  rw [execOpcode, bind_of_ok hneeds, bind_of_ok hsig, bind_of_ok hkey, get_bind_apply]
  rw [bind_of_ok hstrict, bind_of_ok (callCheckSig_unsigned _ _)]
  rfl

/-- The script is good, and makes one call of `CheckSig`. -/
theorem runScript_unsigned : runScript S ⟨txTo, nIn, 123, 0⟩ [] unsignedScript =
    .ok () ⟨[[1]], [], [], 2, [], unsignedScript, 1⟩ := by
  have h1 : evalStep S ⟨txTo, nIn, 123, 0⟩ (.start [] unsignedScript) =
      .ok () ⟨[[]], [], [], 0, unsignedScript.drop 1, unsignedScript, 0⟩ := rfl
  have h2 : evalStep S ⟨txTo, nIn, 123, 0⟩
    ⟨[[]], [], [], 0, unsignedScript.drop 1, unsignedScript, 0⟩ =
      .ok () ⟨[unsignedKey, []], [], [], 0, [0xac, 0x91], unsignedScript, 0⟩ := rfl
  have h3 : evalStep S ⟨txTo, nIn, 123, 0⟩
    ⟨[unsignedKey, []], [], [], 0, [0xac, 0x91], unsignedScript, 0⟩ =
      .ok () ⟨[[]], [], [], 1, [0x91], unsignedScript, 1⟩ := by
    have hcount : countOpcode 0xac ⟨[unsignedKey, []], [], [], 0, [0x91], unsignedScript, 0⟩ =
        .ok () unsignedMachine := rfl
    have hinstr : execInstruction S ⟨txTo, nIn, 123, 0⟩ 0xac [] unsignedMachine =
        .ok () ⟨[[]], [], [], 1, [0x91], unsignedScript, 1⟩ := by
      exact execOpcode_unsigned
    rw [evalStep_eq (by rfl), afterRead, bind_of_ok (by rfl), bind_of_ok hcount,
      bind_of_ok (by rfl), bind_of_ok hinstr]
    rfl
  have h4 : evalStep S ⟨txTo, nIn, 123, 0⟩ ⟨[[]], [], [], 1, [0x91], unsignedScript, 1⟩ =
      .ok () ⟨[[1]], [], [], 2, [], unsignedScript, 1⟩ := rfl
  have hlen : unsignedScript.length = 33 + 4 := rfl
  rw [runScript, hlen, evalLoop_succ (by exact cons_ne_nil _ _), bind_of_ok h1,
    evalLoop_succ (by exact cons_ne_nil _ _), bind_of_ok h2,
    evalLoop_succ (by exact cons_ne_nil _ _), bind_of_ok h3,
    evalLoop_succ (by exact cons_ne_nil _ _), bind_of_ok h4]
  exact evalLoop_nil rfl

theorem verifyScript_unsigned : verifyScript S ⟨txTo, nIn, 123, 0⟩ [] unsignedScript [] =
    .ok true [([], []), ([], unsignedScript)] := by
  have hev : evalScript S ⟨txTo, nIn, 123, 0⟩ [] unsignedScript = (true, [[1]]) := by
    rw [evalScript, if_neg (by decide), runScript_unsigned]
    rfl
  rw [verifyScript, callEvalScript_bind]
  simp only [show evalScript S ⟨txTo, nIn, 123, 0⟩ [] [] = (true, []) from rfl, Bool.not_true,
    Bool.false_eq_true, if_false]
  rw [callEvalScript_bind, hev]
  rfl

theorem checkSigs_unsigned : checkSigs S ⟨txTo, nIn, 123, 0⟩ [] unsignedScript = 1 := by
  have hev : evalCheckSigs S ⟨txTo, nIn, 123, 0⟩ ([], unsignedScript) = 1 := by
    rw [evalCheckSigs, if_neg (by decide), runScript_unsigned]
    rfl
  rw [checkSigs, verifyScript_unsigned]
  show evalCheckSigs S ⟨txTo, nIn, 123, 0⟩ ([], []) + (evalCheckSigs S _ _ + 0) = 1
  rw [hev]
  rfl

theorem getOutputFor_unsigned (hi : i < 2 * n) :
    getOutputFor (unsignedIn i) (unsignedInputs n) = .ok ⟨1, unsignedScript⟩ := by
  have hlt : i / 2 < n := by omega
  have hne : (2 : Uint256) ≠ 1 := by decide
  unfold unsignedIn
  split_ifs
  · simp only [getOutputFor, unsignedInputs, AList.lookup_insert, unsignedFrom,
      getElem?_replicate, hlt, if_true]
  · simp only [getOutputFor, unsignedInputs, AList.lookup_insert_ne hne, AList.lookup_insert,
      unsignedFrom, getElem?_replicate, hlt, if_true]

theorem mem_unsignedTo {txin : CTxIn} (h : txin ∈ (unsignedTo n).vin) :
    ∃ i < 2 * n, txin = unsignedIn i := by
  obtain ⟨i, hi, rfl⟩ := mem_map.mp h
  exact ⟨i, mem_range.mp hi, rfl⟩

theorem isCoinBase_unsignedTo : (unsignedTo n).isCoinBase = false := by
  cases hvin : (unsignedTo n).vin with
  | nil => rw [CTransaction.isCoinBase, hvin]
  | cons txin vin =>
    obtain ⟨i, -, rfl⟩ := mem_unsignedTo (n := n) (hvin ▸ mem_cons_self)
    cases vin with
    | nil =>
      have hnull : (unsignedIn i).prevout.isNull = false := by
        unfold unsignedIn
        split_ifs <;> rfl
      simp only [CTransaction.isCoinBase, hvin, hnull, Bool.false_and]
    | cons txin' vin => rw [CTransaction.isCoinBase, hvin]

theorem getLegacySigOpCount_unsignedFrom (nTime : ℕ) :
    getLegacySigOpCount (unsignedFrom nTime n) = n := by
  simp only [getLegacySigOpCount, unsignedFrom, map_replicate, sum_replicate_nat]
  exact (Nat.zero_add _).trans (mul_one n)

theorem blockSigOps_unsigned : blockSigOps [(unsignedTo n, unsignedInputs n)] = 0 := by
  have hlegacy : getLegacySigOpCount (unsignedTo n) = 0 := by
    rw [getLegacySigOpCount, Nat.add_eq_zero_iff]
    refine ⟨sum_eq_zero fun k hk => ?_, rfl⟩
    obtain ⟨txin, hmem, rfl⟩ := mem_map.mp hk
    obtain ⟨i, -, rfl⟩ := mem_unsignedTo hmem
    rfl
  have hp2sh : getP2SHSigOpCount (unsignedTo n) (unsignedInputs n) = 0 := by
    rw [getP2SHSigOpCount, isCoinBase_unsignedTo, if_neg Bool.false_ne_true]
    refine sum_eq_zero fun k hk => ?_
    obtain ⟨txin, hmem, rfl⟩ := mem_map.mp hk
    obtain ⟨i, hi, rfl⟩ := mem_unsignedTo hmem
    simp only [getOutputFor_unsigned hi]
    rfl
  rw [blockSigOps, map_singleton, sum_singleton, hlegacy, hp2sh]

theorem blockCheckSigs_unsigned :
    blockCheckSigs S 123 [(unsignedTo n, unsignedInputs n)] = 2 * n := by
  rw [blockCheckSigs, map_singleton, sum_singleton, txCheckSigs, isCoinBase_unsignedTo,
    if_neg Bool.false_ne_true]
  have hone : ((unsignedTo n).vin.mapIdx fun i txin =>
      match getOutputFor txin (unsignedInputs n) with
      | .ok prevout => checkSigs S ⟨unsignedTo n, i, 123, 0⟩ txin.scriptSig prevout.scriptPubKey
      | .error _ => 0) = replicate (2 * n) 1 := by
    refine ext_getElem (by simp [unsignedTo]) fun i hi hi' => ?_
    obtain ⟨j, hj, htxin⟩ := mem_unsignedTo (getElem_mem (l := (unsignedTo n).vin) (n := i)
      (by simpa using hi))
    rw [getElem_mapIdx, htxin]
    simp only [getOutputFor_unsigned hj, getElem_replicate]
    exact checkSigs_unsigned
  rw [hone, sum_replicate_nat, mul_one]

theorem getSerializeSize_unsignedTo : (unsignedTo n).getSerializeSize ≤ 50 + 82 * n := by
  have hins : ((unsignedTo n).vin.map CTxIn.getSerializeSize).sum = 82 * n := by
    have hall : (unsignedTo n).vin.map CTxIn.getSerializeSize = replicate (2 * n) 41 := by
      refine eq_replicate_iff.mpr ⟨by simp [unsignedTo], fun k hk => ?_⟩
      obtain ⟨txin, hmem, rfl⟩ := mem_map.mp hk
      obtain ⟨i, -, rfl⟩ := mem_unsignedTo hmem
      rfl
    rw [hall, sum_replicate_nat]
    omega
  have hcompact : ∀ k, getSizeOfCompactSize k ≤ 9 := fun k => by
    unfold getSizeOfCompactSize
    split_ifs <;> omega
  have houts : ((unsignedTo n).vout.map CTxOut.getSerializeSize).sum = 10 := rfl
  have h1 := hcompact (unsignedTo n).vin.length
  have h2 := hcompact (unsignedTo n).vout.length
  rw [CTransaction.getSerializeSize, hins, houts]
  omega

end Unsigned

/-- **The limit is not one on the checks of a block.**  Under the flags of a block of protocol v3
all inputs of the transaction are good, and it has a size that fits into a block; it spends two
transactions that keep to the limit, and nothing is counted, but `CheckSig` is called more often
than the largest count allows. -/
theorem block_checkSigs_not_limited :
    (∀ i < 300002, verifies oneInput.env ⟨unsignedTo 150001, i, 123, 0⟩ [] unsignedScript = true) ∧
    (unsignedTo 150001).getSerializeSize ≤ 15000000 ∧
    (∀ nTime, getLegacySigOpCount (unsignedFrom nTime 150001) ≤ 15000000 / 50) ∧
    blockSigOps [(unsignedTo 150001, unsignedInputs 150001)] = 0 ∧
    blockCheckSigs oneInput.env 123 [(unsignedTo 150001, unsignedInputs 150001)] = 300002 ∧
    ¬ ∀ txs, blockSigOps txs ≤ 15000000 / 50 → blockCheckSigs oneInput.env 123 txs ≤
    15000000 / 50 := by
  refine ⟨fun i _ => ?_, getSerializeSize_unsignedTo.trans (by norm_num), fun nTime => ?_,
    blockSigOps_unsigned, blockCheckSigs_unsigned, fun h => ?_⟩
  · rw [verifies, verifyScript_unsigned]
  · rw [getLegacySigOpCount_unsignedFrom]
    norm_num
  · have hle := h [(unsignedTo 150001, unsignedInputs 150001)]
    rw [blockSigOps_unsigned, blockCheckSigs_unsigned] at hle
    exact absurd (hle (zero_le _)) (by norm_num)

end Espers
