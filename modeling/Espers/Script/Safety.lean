import Espers.Script.Frame

/-!
# The script machine stays inside its stacks

A small program logic: `Ready n` says that there are `n` elements on the stack and that no limit is
broken, and every access asks for as many elements as it reaches down to.

* `execOpcode_ready` : no opcode reaches outside a stack.
* `evalLoop_bounded` : what holds after every instruction.
* `verifyScript_safe` : **no evaluation of `VerifyScript` reaches outside a stack or breaks a
  limit**.
-/

namespace Espers

open Exec List Nat Bool

variable {E : ScriptEnv} {c : EvalContext} {n m i k : ℕ} {s : Machine} {vch : Valtype}

/-- There are `n` elements on the stack, no element is too long, and not too many operations were
counted. -/
structure Machine.Ready (n : ℕ) (s : Machine) : Prop where
  depth : n ≤ s.stack.length
  small : ∀ vch ∈ s.stack, vch.length ≤ maxScriptElementSize
  smallAlt : ∀ vch ∈ s.altstack, vch.length ≤ maxScriptElementSize
  ops : s.nOpCount ≤ 201

theorem Machine.Ready.mono (h : s.Ready n) (hm : m ≤ n) : s.Ready m :=
    ⟨hm.trans h.depth, h.small, h.smallAlt, h.ops⟩

/-- The program stays inside the stacks: it ends with `m` elements, or stops as the source does. -/
abbrev Stays {α : Type} (P : Machine → Prop) (x : ScriptM α) (Q : α → Machine → Prop) : Prop :=
  Triple P x Q (· ≠ .outOfRange)

/-! ### The accesses -/

theorem returnIf_stays (P : Machine → Prop) (b : Bool) :
    Stays P (returnIf b) fun _ s => b = false ∧ P s := by
  cases b with
  | false => exact .pure fun s hs => ⟨rfl, hs⟩
  | true => exact .throw (by decide)

theorem needs_ready (n : ℕ) : Stays (Machine.Ready m) (needs n) fun _ s => s.Ready n := by
  refine .bindGet fun s hs => (returnIf_stays _ _).post fun _ t ht => ?_
  obtain ⟨hlen, rfl⟩ := ht
  exact ⟨by simpa using hlen, hs.small, hs.smallAlt, hs.ops⟩

variable {stack : List Valtype}

theorem elementAt_of_le (h1 : 1 ≤ i) (h : i ≤ stack.length) :
    ∃ vch ∈ stack, elementAt stack i = some vch ∧ stack[i - 1]? = some vch := by
  obtain ⟨j, rfl⟩ : ∃ j, i = j + 1 := ⟨i - 1, by omega⟩
  have hlt : j < stack.length := by omega
  exact ⟨stack[j], getElem_mem hlt, getElem?_eq_getElem hlt, getElem?_eq_getElem hlt⟩

theorem stacktop_ready (h1 : 1 ≤ i) (h : i ≤ n) :
    Stays (Machine.Ready n) (stacktop i) fun vch s => vch.length ≤ maxScriptElementSize ∧
    s.Ready n := by
  refine .of_eq fun s hs => ?_
  obtain ⟨vch, hmem, hget, -⟩ := elementAt_of_le h1 (h.trans hs.depth)
  refine ⟨vch, s, ?_, hs.small vch hmem, hs⟩
  rw [stacktop, get_bind_apply, hget]
  rfl

variable {α : Type} {f : Valtype → ScriptM α} {Q : α → Machine → Prop}

section

variable (hf : ∀ vch, vch.length ≤ maxScriptElementSize → Stays (Machine.Ready n) (f vch) Q)
include hf

theorem bindTop (h1 : 1 ≤ i := by omega) (h : i ≤ n := by omega) :
    Stays (Machine.Ready n) (stacktop i >>= f) Q :=
  (stacktop_ready h1 h).bindFact hf

theorem needsTop (h1 : 1 ≤ i := by omega) (h : i ≤ n := by omega) :
    Stays (Machine.Ready m) (needs n >>= fun _ => stacktop i >>= f) Q :=
  (needs_ready n).bind fun _ => bindTop hf h1 h

end

theorem popstack_ready : Stays (Machine.Ready (n + 1)) popstack fun _ s => s.Ready n := by
  refine .of_eq fun s hs => ?_
  have hdepth := hs.depth
  cases hst : s.stack with
  | nil =>
    rw [hst] at hdepth
    cases hdepth
  | cons vch stack =>
    refine ⟨(), { s with stack := stack }, ?_, ?_, ?_, hs.smallAlt, hs.ops⟩
    · rw [popstack, get_bind_apply, hst]
      rfl
    · rw [hst] at hdepth
      exact le_of_succ_le_succ hdepth
    · intro v hv
      exact hs.small v (hst ▸ .tail _ hv)

theorem pushBack_ready (h : vch.length ≤ maxScriptElementSize) :
    Stays (Machine.Ready n) (pushBack vch) fun _ s => s.Ready (n + 1) := by
  refine .modify fun s hs => ⟨succ_le_succ hs.depth, ?_, hs.smallAlt, hs.ops⟩
  rintro v (_ | ⟨_, hv⟩)
  · exact h
  · exact hs.small v hv

theorem setTop_ready (h1 : 1 ≤ i) (h : i ≤ n) (hv : vch.length ≤ maxScriptElementSize) :
    Stays (Machine.Ready n) (setTop i vch) fun _ s => s.Ready n := by
  refine (stacktop_ready h1 h).bindFact fun _ _ => .modify fun s hs => ?_
  refine ⟨by simpa using hs.depth, fun v hmem => ?_, hs.smallAlt, hs.ops⟩
  rcases mem_or_eq_of_mem_set hmem with hold | rfl
  · exact hs.small v hold
  · exact hv

theorem swapTop_ready {j : ℕ} (hi1 : 1 ≤ i := by omega) (hi : i ≤ n := by omega)
    (hj1 : 1 ≤ j := by omega) (hj : j ≤ n := by omega) :
    Stays (Machine.Ready n) (swapTop i j) fun _ s => s.Ready n :=
  (stacktop_ready hi1 hi).bindFact fun _ h1 => (stacktop_ready hj1 hj).bindFact fun _ h2 =>
    (setTop_ready hi1 hi h2).bind fun _ => setTop_ready hj1 hj h1

theorem eraseTop_ready (h1 : 1 ≤ i := by omega) (h : i ≤ n + 1 := by omega) :
    Stays (Machine.Ready (n + 1)) (eraseTop i) fun _ s => s.Ready n := by
  refine (stacktop_ready h1 h).bindFact fun _ _ => .modify fun s hs => ?_
  have hdepth := hs.depth
  refine ⟨?_, fun v hmem => hs.small v (mem_of_mem_eraseIdx hmem), hs.smallAlt, hs.ops⟩
  rw [length_eraseIdx_of_lt (by omega)]
  omega

theorem insertTop_ready (h : i ≤ n) (hv : vch.length ≤ maxScriptElementSize) :
    Stays (Machine.Ready n) (insertTop i vch) fun _ s => s.Ready (n + 1) := by
  refine .of_eq fun s hs => ?_
  have hle : i ≤ s.stack.length := h.trans hs.depth
  refine ⟨(), { s with stack := s.stack.insertIdx i vch }, ?_, ?_, ?_, hs.smallAlt, hs.ops⟩
  · rw [insertTop, get_bind_apply, if_pos hle]
    rfl
  · simp only
    rw [length_insertIdx_of_le_length hle]
    exact succ_le_succ hs.depth
  · intro v hmem
    rcases (mem_insertIdx hle).mp hmem with rfl | hold
    · exact hv
    · exact hs.small v hold

theorem castToBigNum_ready (P : Machine → Prop) (vch : Valtype) (size : ℕ) :
    Stays P (castToBigNum vch size) fun bn s => bn.natAbs < 256 ^ size ∧ P s := by
  refine .ite (fun _ => .throw (by decide)) fun h => .pure fun s hs => ⟨?_, hs⟩
  exact (natAbs_bnSetvch_lt vch).trans_le (Nat.pow_le_pow_right (by norm_num) (by omega))

theorem addOps_ready (k : ℕ) : Stays (Machine.Ready n) (addOps k) fun _ s => s.Ready n := by
  intro s hs
  by_cases hle : s.nOpCount + k ≤ 201
  · have hcond : decide (s.nOpCount + k > 201) = false := by simpa using hle
    have hrun : addOps k s = .ok () { s with nOpCount := s.nOpCount + k } := by
      rw [addOps, modify_bind_apply, get_bind_apply]
      simp only [hcond]
      rfl
    rw [hrun]
    exact ⟨hs.depth, hs.small, hs.smallAlt, hle⟩
  · have hcond : decide (s.nOpCount + k > 201) = true := by simpa using hle
    have hrun : addOps k s = .error .returnFalse { s with nOpCount := s.nOpCount + k } := by
      rw [addOps, modify_bind_apply, get_bind_apply]
      simp only [hcond]
      rfl
    rw [hrun]
    exact (by decide : ScriptStop.returnFalse ≠ .outOfRange)

theorem length_vchBool (b : Bool) : (vchBool b).length ≤ maxScriptElementSize := by
  cases b <;> decide

theorem pushResult_ready (fSuccess fVerify : Bool) :
    Stays (Machine.Ready n) (pushResult fSuccess fVerify) fun _ s => s.Ready n := by
  refine (pushBack_ready (length_vchBool fSuccess)).bind fun _ => ?_
  refine .ite (fun _ => .ite (fun _ => popstack_ready) fun _ =>
    Triple.throw (by decide)) fun _ => .pure fun s hs => hs.mono (le_succ n)

theorem length_bnGetvch_small {bn : ℤ} (h : bn.natAbs < 256 ^ 8) :
    (bnGetvch bn).length ≤ maxScriptElementSize :=
  (length_bnGetvch_le h).trans (by decide)

theorem UnaryOp.natAbs_eval {bn : ℤ} (h : bn.natAbs < 256 ^ 4) (op : UnaryOp) :
    (op.eval bn).natAbs < 256 ^ 8 := by
  cases op <;> simp only [UnaryOp.eval, bnOfBool] <;> (try split_ifs) <;> omega

theorem BinaryOp.natAbs_eval {bn1 bn2 : ℤ} (h1 : bn1.natAbs < 256 ^ 4) (h2 : bn2.natAbs < 256 ^ 4)
    (op : BinaryOp) : (op.eval bn1 bn2).natAbs < 256 ^ 8 := by
  cases op <;> simp only [BinaryOp.eval, bnOfBool] <;> (try split_ifs) <;> omega

theorem length_writeBits {w : ℕ} (k : ℕ) (x : BitVec w) : (Wire.writeBits k x).length = k :=
  Wire.length_bytesLE k x.toNat

theorem HashOp.length_eval (E : ScriptEnv) (vch : Valtype) (op : HashOp) :
    (op.eval E vch).length ≤ maxScriptElementSize := by
  cases op <;> simp [HashOp.eval, length_writeBits, maxScriptElementSize]

/-! ### `OP_CHECKMULTISIG` -/

theorem callCheckSig_ready (vchSig vchPubKey : Valtype) (scriptCode : CScript) :
    Stays (Machine.Ready n) (callCheckSig E c vchSig vchPubKey scriptCode) fun _ s =>
    s.Ready n := by
  refine .ite (fun _ => ?_) fun _ => .pure fun s hs => hs
  exact (Triple.modify fun s hs => ⟨hs.depth, hs.small, hs.smallAlt, hs.ops⟩).bind fun _ =>
    Triple.pure fun s hs => hs

/-- The loop of `OP_CHECKMULTISIG` looks at keys and signatures that are there. -/
theorem multiSigLoop_ready (scriptCode : CScript) {nKeysCount nSigsCount isig ikey : ℕ}
    (hsig1 : 1 ≤ isig) (hsig : isig + nSigsCount ≤ n + 1) (hkey1 : 1 ≤ ikey)
    (hkey : ikey + nKeysCount ≤ n + 1) :
    Stays (Machine.Ready n) (multiSigLoop E c scriptCode nKeysCount nSigsCount isig ikey)
      fun _ s => s.Ready n := by
  induction nKeysCount generalizing nSigsCount isig ikey with
  | zero => cases nSigsCount <;> exact .pure fun s hs => hs
  | succ nKeysCount ih =>
    cases nSigsCount with
    | zero => exact .pure fun s hs => hs
    | succ nSigsCount =>
      refine (stacktop_ready hsig1 (by omega)).bindFact fun vchSig _ => ?_
      refine (stacktop_ready hkey1 (by omega)).bindFact fun vchPubKey _ => ?_
      refine (returnIf_stays _ _).bindFact fun _ _ => ?_
      refine (callCheckSig_ready vchSig vchPubKey scriptCode).bind fun fOk => ?_
      refine .ite (fun _ => .pure fun s hs => hs) fun _ => ?_
      -- a signature that is good is taken away, and the key in any case
      cases fOk with
      | true => exact ih (by simp) (by simp; omega) (by omega) (by omega)
      | false => exact ih (by simpa using hsig1) (by simpa using hsig) (by omega) (by omega)

theorem dropSignatures_ready (scriptCode : CScript) {isig : ℕ} (h1 : 1 ≤ isig)
    (h : isig + k ≤ n + 1) : Stays (Machine.Ready n) (dropSignatures isig k scriptCode) fun _ s =>
    s.Ready n := by
  induction k with
  | zero => exact .pure fun s hs => hs
  | succ k ih =>
    refine (ih (by omega)).bind fun scriptCode => ?_
    exact bindTop fun _ _ => .pure fun s hs => hs

theorem popMany_ready (k : ℕ) : Stays (Machine.Ready (n + k)) (popMany k) fun _ s => s.Ready n := by
  induction k with
  | zero => exact .pure fun s hs => hs
  | succ k ih => exact popstack_ready.bind fun _ => ih

theorem checkMultiSigKeys_ready (fVerify : Bool) (nKeysCount : ℤ) :
    Stays (Machine.Ready n) (checkMultiSigKeys E c fVerify nKeysCount) fun _ s => s.Ready 0 := by
  refine (returnIf_stays _ _).bindFact fun _ hkeys => ?_
  refine (addOps_ready _).bind fun _ => (needs_ready _).bind fun _ => ?_
  refine bindTop fun _ _ => ?_
  refine (castToBigNum_ready _ _ 4).bindFact fun bnSigs _ => ?_
  refine (returnIf_stays _ _).bindFact fun _ hsigs => (needs_ready _).bind fun _ => ?_
  refine .bindGet fun s hs => ?_
  have hle : (getint bnSigs).toNat ≤ nKeysCount.toNat := by
    simp only [or_eq_false_iff, decide_eq_false_iff_not] at hkeys hsigs
    omega
  generalize nKeysCount.toNat = nKeys at hle hs ⊢
  generalize (getint bnSigs).toNat = nSigs at hle hs ⊢
  refine ((dropSignatures_ready s.pbegincodehash (by omega) (by omega)).pre fun t ht =>
    ht ▸ hs).bind fun scriptCode => ?_
  refine (multiSigLoop_ready scriptCode (by omega) (by omega) (by omega) (by omega)).bind
    fun fSuccess => ?_
  -- everything but the extra argument is popped
  have hpop : 2 + nKeys + 1 + nSigs = 1 + (2 + nKeys + 1 + nSigs - 1) := by omega
  refine ((popMany_ready (n := 1) _).pre fun t ht => ?_).bind fun _ =>
    (needs_ready 1).bind fun _ => ?_
  · rwa [← hpop]
  refine bindTop fun _ _ => (returnIf_stays _ _).bindFact fun _ _ =>
    ?_
  exact popstack_ready.bind fun _ => pushResult_ready fSuccess fVerify

theorem checkMultiSig_ready (fVerify : Bool) :
    Stays (Machine.Ready n) (checkMultiSig E c fVerify) fun _ s => s.Ready 0 :=
  needsTop fun _ _ =>
    (castToBigNum_ready _ _ 4).bindFact fun _ _ => checkMultiSigKeys_ready fVerify _

/-! ### Every opcode -/

/-- What holds between two instructions. -/
structure Machine.Bounded (s : Machine) : Prop extends s.Ready 0 where
  size : s.stack.length + s.altstack.length ≤ 1000

theorem ready_zero {α : Type} {P : Machine → Prop} {x : ScriptM α}
    (h : Stays P x fun _ s => s.Ready n) : Stays P x fun _ s => s.Ready 0 :=
  h.post fun _ _ hs => hs.mono (zero_le n)

/-- **No opcode reaches outside a stack.** -/
theorem execOpcode_ready (hin : c.nIn < c.txTo.vin.length) (fExec : Bool) (op : Opcode)
    (hn : ∀ z, op = .opN z → z.natAbs < 256 ^ 8) :
    Stays Machine.Bounded (execOpcode E c fExec op) fun _ s => s.Ready 0 := by
  have hpre : ∀ {α : Type} {x : ScriptM α} {Q : α → Machine → Prop},
      Stays (Machine.Ready 0) x Q → Stays Machine.Bounded x Q :=
      fun h => h.pre fun s hs => hs.toReady
  cases op with
  | opN z => exact ready_zero (hpre (pushBack_ready (length_bnGetvch_small (hn z rfl))))
  | opNop => exact Triple.pure fun s hs => hs.toReady
  | opCheckLockTimeVerify =>
    refine hpre (Triple.ite (fun _ => (returnIf_stays _ _).post fun _ _ h => h.2) fun _ => ?_)
    refine needsTop fun _ _ => ?_
    refine (castToBigNum_ready _ _ 5).bindFact fun nLockTime _ =>
      (returnIf_stays _ _).bindFact fun _ _ => ?_
    have hlock : Stays (Machine.Ready 1) (checkLockTime c.txTo c.nIn nLockTime) fun _ s =>
      s.Ready 1 := by
      refine Triple.ite (fun _ => Triple.pure fun s hs => hs) fun _ => ?_
      refine Triple.ite (fun _ => Triple.pure fun s hs => hs) fun _ => ?_
      rw [getElem?_eq_getElem hin]
      exact Triple.pure fun s hs => hs
    exact ready_zero (hlock.bind fun fOk => (returnIf_stays _ _).post fun _ _ h => h.2)
  | opUpgradableNop => exact hpre ((returnIf_stays _ _).post fun _ _ h => h.2)
  | opIf fNot =>
    refine hpre (Triple.ite (fun _ => ?_) fun _ => Triple.modify fun s hs =>
      ⟨hs.depth, hs.small, hs.smallAlt, hs.ops⟩)
    refine needsTop fun _ _ => ?_
    exact popstack_ready.bind fun _ => Triple.modify fun s hs =>
      ⟨hs.depth, hs.small, hs.smallAlt, hs.ops⟩
  | opElse =>
    refine hpre (Triple.bindGet fun s hs => (returnIf_stays _ _).bindFact fun _ hne => ?_)
    cases hv : s.vfExec with
    | nil => simp [hv] at hne
    | cons fValue vfExec =>
      refine Triple.of_eq fun t ht => ?_
      subst ht
      refine ⟨(), { t with vfExec := (!fValue) :: vfExec }, ?_, hs.depth, hs.small,
        hs.smallAlt, hs.ops⟩
      rw [popExec]
      simp only [bind_apply, get_apply, hv, set_apply, pure_apply, modify_apply]
  | opEndIf =>
    refine hpre (Triple.bindGet fun s hs => (returnIf_stays _ _).bindFact fun _ hne => ?_)
    cases hv : s.vfExec with
    | nil => simp [hv] at hne
    | cons fValue vfExec =>
      refine Triple.of_eq fun t ht => ?_
      subst ht
      refine ⟨(), { t with vfExec := vfExec }, ?_, hs.depth, hs.small, hs.smallAlt, hs.ops⟩
      rw [popExec]
      simp only [bind_apply, get_apply, hv, set_apply, pure_apply]
  | opVerify =>
    refine hpre (needsTop fun _ _ => ?_)
    exact Triple.ite (fun _ => popstack_ready) fun _ => Triple.throw (by decide)
  | opReturn => exact Triple.throw (by decide)
  | opToAltStack =>
    refine hpre (needsTop fun vch hv => ?_)
    refine (Triple.modify fun s hs => ⟨hs.depth, hs.small, ?_, hs.ops⟩).bind fun _ => popstack_ready
    rintro v (_ | ⟨_, hmem⟩)
    · exact hv
    · exact hs.smallAlt v hmem
  | opFromAltStack =>
    refine hpre (Triple.bindGet fun s hs => (returnIf_stays _ _).bindFact fun _ hne => ?_)
    cases halt : s.altstack with
    | nil => simp [halt] at hne
    | cons vch altstack =>
      have hpop : Stays (· = s) popAltstack
          fun v t => v.length ≤ maxScriptElementSize ∧ t.Ready 0 := by
        refine Triple.of_eq fun t ht => ?_
        subst ht
        refine ⟨vch, { t with altstack := altstack }, ?_, hs.smallAlt vch (halt ▸ .head _),
          hs.depth, hs.small, fun v hmem => hs.smallAlt v (halt ▸ .tail _ hmem), hs.ops⟩
        rw [popAltstack, get_bind_apply, halt]
        rfl
      exact ready_zero (hpop.bindFact fun v hv => pushBack_ready hv)
  | op2Drop =>
    exact hpre ((needs_ready 2).bind fun _ => popstack_ready.bind fun _ => popstack_ready)
  | op2Dup =>
    refine hpre ((needs_ready 2).bind fun _ => ?_)
    refine bindTop fun vch1 h1 => ?_
    refine bindTop fun vch2 h2 => ?_
    exact ready_zero ((pushBack_ready h1).bind fun _ => pushBack_ready h2)
  | op3Dup =>
    refine hpre ((needs_ready 3).bind fun _ => ?_)
    refine bindTop fun vch1 h1 => ?_
    refine bindTop fun vch2 h2 => ?_
    refine bindTop fun vch3 h3 => ?_
    exact ready_zero ((pushBack_ready h1).bind fun _ => (pushBack_ready h2).bind fun _ =>
      pushBack_ready h3)
  | op2Over =>
    refine hpre ((needs_ready 4).bind fun _ => ?_)
    refine bindTop fun vch1 h1 => ?_
    refine bindTop fun vch2 h2 => ?_
    exact ready_zero ((pushBack_ready h1).bind fun _ => pushBack_ready h2)
  | op2Rot =>
    refine hpre ((needs_ready 6).bind fun _ => ?_)
    refine bindTop fun vch1 h1 => ?_
    refine bindTop fun vch2 h2 => ?_
    refine (eraseTop_ready).bind fun _ =>
      (eraseTop_ready).bind fun _ => ?_
    exact ready_zero ((pushBack_ready h1).bind fun _ => pushBack_ready h2)
  | op2Swap =>
    refine hpre ((needs_ready 4).bind fun _ => ?_)
    exact ready_zero ((swapTop_ready).bind fun _ => swapTop_ready)
  | opIfDup =>
    refine hpre (needsTop fun vch hv => ?_)
    exact Triple.ite (fun _ => ready_zero (pushBack_ready hv)) fun _ =>
      Triple.pure fun s hs => hs.mono (zero_le 1)
  | opDepth =>
    refine Triple.bindGet fun s hs =>
      ready_zero ((pushBack_ready ?_).pre fun t ht => ht ▸ hs.toReady)
    have hsize := hs.size
    exact length_bnGetvch_small (by omega)
  | opDrop => exact hpre ((needs_ready 1).bind fun _ => popstack_ready)
  | opDup =>
    refine hpre (needsTop fun vch hv => ?_)
    exact ready_zero (pushBack_ready hv)
  | opNip =>
    exact hpre ((needs_ready 2).bind fun _ => ready_zero eraseTop_ready)
  | opOver =>
    refine hpre (needsTop fun vch hv => ?_)
    exact ready_zero (pushBack_ready hv)
  | opPick fRoll =>
    refine hpre (needsTop fun _ _ => ?_)
    refine (castToBigNum_ready _ _ 4).bindFact fun bn _ => popstack_ready.bind fun _ => ?_
    refine Triple.bindGet fun s hs => (returnIf_stays _ _).bindFact fun _ hrange => ?_
    -- the depth is below the size
    have hlt : (getint bn).toNat + 1 ≤ s.stack.length := by
      simp only [or_eq_false_iff, decide_eq_false_iff_not] at hrange
      omega
    have hready : s.Ready ((getint bn).toNat + 1) := ⟨hlt, hs.small, hs.smallAlt, hs.ops⟩
    refine ((stacktop_ready (by omega) le_rfl).pre fun t ht => ht ▸ hready).bindFact fun vch hv =>
      ?_
    refine Triple.ite (fun _ => ?_) fun _ => ready_zero (pushBack_ready hv)
    exact (eraseTop_ready).bind fun _ => ready_zero (pushBack_ready hv)
  | opRot =>
    refine hpre ((needs_ready 3).bind fun _ => ?_)
    exact ready_zero ((swapTop_ready).bind fun _ => swapTop_ready)
  | opSwap =>
    exact hpre ((needs_ready 2).bind fun _ => ready_zero (swapTop_ready))
  | opTuck =>
    refine hpre (needsTop fun vch hv => ?_)
    exact ready_zero (insertTop_ready le_rfl hv)
  | opSize =>
    refine hpre (needsTop fun vch hv => ?_)
    refine ready_zero (pushBack_ready (length_bnGetvch_small ?_))
    rw [maxScriptElementSize] at hv
    omega
  | opEqual fVerify =>
    refine hpre (needsTop fun _ _ => ?_)
    refine bindTop fun _ _ => ?_
    exact popstack_ready.bind fun _ => popstack_ready.bind fun _ => pushResult_ready _ fVerify
  | unary op =>
    refine hpre (needsTop fun _ _ => ?_)
    refine (castToBigNum_ready _ _ 4).bindFact fun bn hbn => popstack_ready.bind fun _ => ?_
    exact ready_zero (pushBack_ready (length_bnGetvch_small (op.natAbs_eval hbn)))
  | binary op fVerify =>
    refine hpre (needsTop fun _ _ => ?_)
    refine (castToBigNum_ready _ _ 4).bindFact fun bn1 h1 => ?_
    refine bindTop fun _ _ => ?_
    refine (castToBigNum_ready _ _ 4).bindFact fun bn2 h2 => ?_
    refine popstack_ready.bind fun _ => popstack_ready.bind fun _ => ?_
    refine (pushBack_ready (length_bnGetvch_small (op.natAbs_eval h1 h2))).bind fun _ => ?_
    refine Triple.ite (fun _ => bindTop fun _ _ => ?_) fun _ =>
      Triple.pure fun s hs => hs.mono (zero_le _)
    exact Triple.ite (fun _ => popstack_ready) fun _ => Triple.throw (by decide)
  | opWithin =>
    refine hpre (needsTop fun _ _ => ?_)
    refine (castToBigNum_ready _ _ 4).bindFact fun bn1 _ => ?_
    refine bindTop fun _ _ => ?_
    refine (castToBigNum_ready _ _ 4).bindFact fun bn2 _ => ?_
    refine bindTop fun _ _ => ?_
    refine (castToBigNum_ready _ _ 4).bindFact fun bn3 _ => ?_
    refine popstack_ready.bind fun _ => popstack_ready.bind fun _ => popstack_ready.bind fun _ => ?_
    exact ready_zero (pushBack_ready (length_vchBool _))
  | hash op =>
    refine hpre (needsTop fun vch _ => ?_)
    exact popstack_ready.bind fun _ => ready_zero (pushBack_ready (op.length_eval E vch))
  | opCodeSeparator =>
    exact hpre (Triple.modify fun s hs => ⟨hs.depth, hs.small, hs.smallAlt, hs.ops⟩)
  | opCheckSig fVerify =>
    refine hpre (needsTop fun vchSig _ => ?_)
    refine bindTop fun vchPubKey _ =>
      Triple.bindGet fun s hs => ?_
    refine ((returnIf_stays _ _).pre fun t ht => ht ▸ hs).bindFact fun _ _ => ?_
    refine (callCheckSig_ready vchSig vchPubKey _).bind fun fSuccess => ?_
    exact popstack_ready.bind fun _ => popstack_ready.bind fun _ =>
      pushResult_ready fSuccess fVerify
  | opCheckMultiSig fVerify => exact hpre (checkMultiSig_ready fVerify)
  | invalid => exact Triple.throw (by decide)

/-! ### Every instruction -/

theorem opcodeOf_opN {opcode : UInt8} {z : ℤ} (h : opcodeOf opcode = .opN z) :
    z.natAbs < 256 ^ 8 := by
  have hall : ∀ n < 256, (match opcodeOf (UInt8.ofNat n) with
      | .opN z => decide (z.natAbs < 256 ^ 8)
      | _ => true) = true := by
    decide +kernel
  have hop := hall opcode.toNat opcode.toNat_lt
  rw [UInt8.ofNat_toNat, h] at hop
  exact of_decide_eq_true hop

theorem countOpcode_bounded (opcode : UInt8) : Stays Machine.Bounded (countOpcode opcode) fun _ s =>
    s.Bounded := by
  refine .ite (fun _ => ?_) fun _ => .pure fun s hs => hs
  intro s hs
  have hready := addOps_ready (n := 0) 1 s hs.toReady
  cases hrun : addOps 1 s with
  | error e t =>
    rw [hrun] at hready
    exact hready
  | ok a t =>
    rw [hrun] at hready
    -- counting changes no stack
    have hstacks : t.stack = s.stack ∧ t.altstack = s.altstack := by
      rw [addOps, modify_bind_apply, get_bind_apply] at hrun
      unfold returnIf at hrun
      split_ifs at hrun
      · cases hrun
      · cases hrun
        exact ⟨rfl, rfl⟩
    exact ⟨hready, by rw [hstacks.1, hstacks.2]; exact hs.size⟩

theorem execInstruction_ready (hin : c.nIn < c.txTo.vin.length) (opcode : UInt8)
    (hv : vch.length ≤ maxScriptElementSize) :
    Stays Machine.Bounded (execInstruction E c opcode vch) fun _ s => s.Ready 0 := by
  refine .bindGet fun s hs => ?_
  refine .ite (fun _ => ready_zero ((pushBack_ready hv).pre fun t ht => ht ▸ hs.toReady))
    fun _ => ?_
  refine .ite (fun _ => ?_) fun _ => .pure fun t ht => ht ▸ hs.toReady
  exact (execOpcode_ready hin _ _ fun z hz => opcodeOf_opN hz).pre fun t ht => ht ▸ hs

/-- **An instruction keeps the limits**, and stops as the source does. -/
theorem evalStep_bounded (hin : c.nIn < c.txTo.vin.length) :
    Stays Machine.Bounded (evalStep E c) fun _ s => s.Bounded := by
  intro s hs
  cases hget : getOp s.pc with
  | none =>
    rw [evalStep_of_none hget]
    exact (by decide : ScriptStop.returnFalse ≠ .outOfRange)
  | some r =>
    obtain ⟨opcode, vch, pc⟩ := r
    rw [evalStep_eq hget]
    have hafter : Stays Machine.Bounded (afterRead E c opcode vch) fun _ s => s.Bounded := by
      refine (returnIf_stays _ _).bindFact fun _ hlen => (countOpcode_bounded opcode).bind fun _ =>
        ?_
      have hv : vch.length ≤ maxScriptElementSize := by simpa using hlen
      refine (returnIf_stays _ _).bindFact fun _ _ =>
        (execInstruction_ready hin opcode hv).bind fun _ => ?_
      refine .bindGet fun t ht => (returnIf_stays _ _).post fun _ t' ht' => ?_
      obtain ⟨hsize, rfl⟩ := ht'
      exact ⟨ht, by simpa using hsize⟩
    exact hafter _ ⟨⟨hs.depth, hs.small, hs.smallAlt, hs.ops⟩, hs.size⟩

/-- **After every number of instructions the limits hold**, and no instruction reaches outside. -/
theorem evalLoop_bounded (hin : c.nIn < c.txTo.vin.length) (k : ℕ) :
    Stays Machine.Bounded (evalLoop E c k) fun _ s => s.Bounded := by
  induction k with
  | zero => exact .pure fun s hs => hs
  | succ k ih =>
    refine .bindGet fun s hs => .ite (fun _ => .pure fun t ht => ht ▸ hs) fun _ =>
      ?_
    exact .bind ((evalStep_bounded hin).pre fun t (ht : t = s) => ht ▸ hs) fun _ => ih

/-- The depth in conditionals at the end of a script, if every `OP_ELSE` and `OP_ENDIF` has its
`OP_IF`. -/
def conditionals : ℕ → ℕ → CScript → Option ℕ
  | _, depth, [] => some depth
  | 0, _, _ => none
  | fuel + 1, depth, script =>
    match getOp script with
    | none => none
    | some (opcode, _, pc) =>
      ((opcodeOf opcode).depth depth).bind fun depth => conditionals fuel depth pc

theorem evalLoop_conditionals {t : Machine} (hk : s.pc.length ≤ k)
    (h : evalLoop E c k s = .ok () t) : t.pc = [] ∧ conditionals k s.vfExec.length s.pc =
    some t.vfExec.length := by
  induction k generalizing s with
  | zero =>
    have hnil : s.pc = [] := length_eq_zero_iff.mp (le_zero.mp hk)
    cases h
    rw [hnil]
    exact ⟨rfl, rfl⟩
  | succ k ih =>
    by_cases hnil : s.pc = []
    · rw [evalLoop_nil hnil] at h
      cases h
      rw [hnil]
      exact ⟨rfl, rfl⟩
    · rw [evalLoop_succ hnil] at h
      obtain ⟨_, s1, hstep, hrest⟩ := bind_eq_ok.mp h
      cases hget : getOp s.pc with
      | none =>
        rw [evalStep_of_none hget] at hstep
        cases hstep
      | some r =>
        obtain ⟨opcode, vch, pc⟩ := r
        obtain ⟨hpc, -, hdepth⟩ := evalStep_spec (E := E) (c := c) hget
        rw [hstep] at hpc hdepth
        have hlt := length_of_getOp hget
        obtain ⟨hend, hcond⟩ := ih (by rw [show s1.pc = pc from hpc]; omega) hrest
        refine ⟨hend, ?_⟩
        rw [show s1.pc = pc from hpc] at hcond
        obtain ⟨b, script, hcons⟩ := exists_cons_of_ne_nil hnil
        rw [hcons] at hget ⊢
        rw [conditionals, hget]
        · simp only [hdepth s1 rfl, Option.bind_some, hcond]
        · exact cons_ne_nil b script

/-! ### `VerifyScript` -/

/-- What is right about an evaluation: it never reaches outside a stack, it keeps the limits after
every number of instructions, and it succeeds only at the end of a script whose conditionals are
closed. -/
structure Evaluates (E : ScriptEnv) (c : EvalContext) (stack : List Valtype) (script : CScript) :
    Prop where
  inside : ∀ k e t, evalLoop E c k (.start stack script) = .error e t →
    e = .returnFalse ∨ e = .overflow
  bounded : ∀ k t, evalLoop E c k (.start stack script) = .ok () t →
    t.stack.length + t.altstack.length ≤ 1000 ∧
      (∀ vch ∈ t.stack ++ t.altstack, vch.length ≤ maxScriptElementSize) ∧ t.nOpCount ≤ 201
  closed : (evalScript E c stack script).1 = true → conditionals script.length 0 script = some 0

/-- A stack that keeps the limits. -/
def SmallStack (stack : List Valtype) : Prop :=
  stack.length ≤ 1000 ∧ ∀ vch ∈ stack, vch.length ≤ maxScriptElementSize

theorem SmallStack.start (h : SmallStack stack) (script : CScript) :
    (Machine.start stack script).Bounded :=
  ⟨⟨zero_le _, h.2, by simp [Machine.start], zero_le _⟩, by simpa [Machine.start] using h.1⟩

theorem SmallStack.evaluates (hin : c.nIn < c.txTo.vin.length)
    (h : SmallStack stack) (script : CScript) : Evaluates E c stack script := by
  refine ⟨fun k e t hrun => ?_, fun k t hrun => ?_, fun htrue => ?_⟩
  · have hne := (evalLoop_bounded (E := E) hin k).error (h.start script) hrun
    cases e with
    | returnFalse => exact .inl rfl
    | overflow => exact .inr rfl
    | outOfRange => exact absurd rfl hne
  · have hb := (evalLoop_bounded (E := E) hin k).ok (h.start script) hrun
    refine ⟨hb.size, fun vch hmem => ?_, hb.ops⟩
    rcases mem_append.mp hmem with hmem | hmem
    · exact hb.small vch hmem
    · exact hb.smallAlt vch hmem
  · unfold evalScript at htrue
    split_ifs at htrue
    cases hrun : runScript E c stack script with
    | error e t =>
      rw [hrun] at htrue
      cases htrue
    | ok a t =>
      rw [hrun] at htrue
      have hcond := (evalLoop_conditionals (s := .start stack script) le_rfl hrun).2
      rw [isEmpty_iff.mp htrue] at hcond
      exact hcond

theorem SmallStack.evalScript (hin : c.nIn < c.txTo.vin.length)
    (h : SmallStack stack) {script : CScript} (htrue : (evalScript E c stack script).1 = true) :
    SmallStack (evalScript E c stack script).2 := by
  unfold Espers.evalScript at htrue ⊢
  split_ifs at htrue with hlen
  rw [if_neg hlen]
  cases hrun : runScript E c stack script with
  | error e t =>
    rw [hrun] at htrue
    cases htrue
  | ok a t =>
    have hb := (evalLoop_bounded (E := E) hin _).ok (h.start script) hrun
    exact ⟨(le_add_right _ _).trans hb.size, hb.small⟩

theorem evalScript_hash160_nil (E : ScriptEnv) (c : EvalContext) (script : CScript) :
    (evalScript E c [] (0xa9 :: script)).1 = false := by
  have hstep : evalStep E c (.start [] (0xa9 :: script)) =
      .error .returnFalse ⟨[], [], [], 1, script, 0xa9 :: script, 0⟩ := by
    rfl
  unfold evalScript
  split_ifs
  · rfl
  · have hrun : runScript E c [] (0xa9 :: script) =
        .error .returnFalse ⟨[], [], [], 1, script, 0xa9 :: script, 0⟩ := by
      rw [runScript, length_cons, evalLoop_succ (cons_ne_nil _ _), bind_of_error hstep]
    rw [hrun]

theorem hash160_of_isPayToScriptHash {script : CScript} (h : isPayToScriptHash script = true) :
    ∃ rest, script = 0xa9 :: rest := by
  unfold isPayToScriptHash at h
  cases script with
  | nil => cases h
  | cons op rest =>
    simp only [and_eq_true, beq_iff_eq, getD_cons_zero] at h
    exact ⟨rest, by rw [h.1.1.2]⟩

/-- **`VerifyScript` is safe.**  It answers, so that `stackCopy` is not empty when its back is read;
none of the evaluations it makes reaches outside a stack, and all of them keep the limits and close
their conditionals. -/
theorem verifyScript_safe (E : ScriptEnv) (c : EvalContext) (scriptSig scriptPubKey : CScript)
    (hin : c.nIn < c.txTo.vin.length) :
    ∃ fOk evals, verifyScript E c scriptSig scriptPubKey [] = .ok fOk evals ∧
      ∀ eval ∈ evals, Evaluates E c eval.1 eval.2 := by
  have hnil : SmallStack [] := ⟨by simp, by simp⟩
  have hsig := hnil.evaluates (E := E) hin scriptSig
  unfold verifyScript
  cases h1 : evalScript E c [] scriptSig with
  | mk fOk stackCopy =>
    have hcall1 : callEvalScript E c [] scriptSig [] = .ok (fOk, stackCopy) [([], scriptSig)] := by
      rw [callEvalScript, modify_bind_apply, h1]
      rfl
    rw [bind_of_ok hcall1]
    cases fOk with
    | false =>
      refine ⟨false, [([], scriptSig)], rfl, ?_⟩
      rintro _ (_ | ⟨_, ⟨⟩⟩)
      exact hsig
    | true =>
      have hsmall : SmallStack stackCopy := by
        have := hnil.evalScript (E := E) hin (by rw [h1])
        rwa [h1] at this
      have hpub := hsmall.evaluates (E := E) hin scriptPubKey
      cases h2 : evalScript E c stackCopy scriptPubKey with
      | mk fOk2 stack =>
        have hcall2 : callEvalScript E c stackCopy scriptPubKey [([], scriptSig)] =
            .ok (fOk2, stack) [([], scriptSig), (stackCopy, scriptPubKey)] := by
          rw [callEvalScript, modify_bind_apply, h2]
          rfl
        have htwo : ∀ eval ∈ [([], scriptSig), (stackCopy, scriptPubKey)],
          Evaluates E c eval.1 eval.2 := by
          rintro _ (_ | ⟨_, _ | ⟨_, ⟨⟩⟩⟩)
          · exact hsig
          · exact hpub
        simp only [Bool.not_true, Bool.false_eq_true, if_false]
        rw [bind_of_ok hcall2]
        by_cases hfail : (!fOk2 || !trueOnTop stack) = true
        · rw [if_pos hfail]
          exact ⟨false, _, rfl, htwo⟩
        rw [if_neg hfail]
        by_cases hp2sh : isPayToScriptHash scriptPubKey = true
        · rw [if_neg (by rw [hp2sh]; exact Bool.false_ne_true)]
          by_cases hpush : (!isPushOnly scriptSig) = true
          · rw [if_pos hpush]
            exact ⟨false, _, rfl, htwo⟩
          rw [if_neg hpush]
          cases stackCopy with
          | nil =>
            -- the script would have failed on an empty stack
            obtain ⟨rest, rfl⟩ := hash160_of_isPayToScriptHash hp2sh
            have hfalse := evalScript_hash160_nil E c rest
            rw [h2] at hfalse
            simp only at hfalse
            rw [hfalse] at hfail
            exact absurd rfl hfail
          | cons pubKeySerialized stackCopy =>
            have hrest : SmallStack stackCopy :=
              ⟨(le_succ _).trans hsmall.1, fun vch hm => hsmall.2 vch (.tail _ hm)⟩
            refine ⟨_, _, rfl, ?_⟩
            rintro _ (_ | ⟨_, _ | ⟨_, _ | ⟨_, ⟨⟩⟩⟩⟩)
            · exact hsig
            · exact hpub
            · exact hrest.evaluates (E := E) hin pubKeySerialized
        · rw [if_pos (by simpa using hp2sh)]
          exact ⟨true, _, rfl, htwo⟩

namespace oneInput

/-- Hashes of one value, and signatures that are all good. -/
def env : ScriptEnv where
  pubKeyOf _ fCompressed := if fCompressed then replicate 33 2 else replicate 65 4
  hash160 _ := 0
  hash _ := 0
  length_pubKeyOf _ fCompressed := by cases fCompressed <;> rfl
  ripemd160 _ := 0
  sha1 _ := 0
  sha256 _ := 0
  verify _ _ _ := true
  hashTx _ _ := 0

/-- A transaction of one input, under the standard flags. -/
def context : EvalContext := ⟨⟨1, 0, [⟨⟨0, 0⟩, [], 0⟩], [], 0⟩, 0, 126, 0⟩

end oneInput

/-- `1 1 OP_EQUAL`. -/
theorem verifyScript_safe_equal : ∃ fOk evals,
    verifyScript oneInput.env oneInput.context [0x51] [0x51, 0x87] [] = .ok fOk evals ∧
      ∀ eval ∈ evals, Evaluates oneInput.env oneInput.context eval.1 eval.2 :=
  verifyScript_safe oneInput.env oneInput.context [0x51] [0x51, 0x87] (by decide)

end Espers
