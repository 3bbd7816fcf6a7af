import Espers.Script.Machine

/-!
# What an instruction leaves alone

An instruction does not move in the script, and only those for conditionals touch `vfExec`.  The
number of calls of `CheckSig` that it can make depends on its opcode.

* `Costs k x` : the program leaves the script and the conditionals alone, and calls `CheckSig` at
  most `k` times.
* `execOpcode_costs` : the cost of every opcode but those for conditionals.
* `evalStep_spec` : what one pass of the loop does to the script, the conditionals and the calls.
-/

namespace Espers

open Exec Nat Bool

variable {E : ScriptEnv} {c : EvalContext} {α β : Type} {j k : ℕ} {s : Machine}

/-- However it ends, the program leaves the script and the conditionals alone, and calls `CheckSig`
at most `k` times. -/
def Costs (k : ℕ) (x : ScriptM α) : Prop :=
  ∀ s, (finalState (x s)).pc = s.pc ∧ (finalState (x s)).vfExec = s.vfExec ∧
    (finalState (x s)).nCheckSig ≤ s.nCheckSig + k

namespace Costs

variable {x y : ScriptM α} {f : α → ScriptM β}

theorem mono (h : Costs j x) (hk : j ≤ k) : Costs k x := fun s =>
  ⟨(h s).1, (h s).2.1, (h s).2.2.trans (by omega)⟩

theorem pure (a : α) : Costs 0 (pure a : ScriptM α) := fun _ => ⟨rfl, rfl, le_rfl⟩

theorem throw (e : ScriptStop) : Costs k (throw e : ScriptM α) :=
    fun _ => ⟨rfl, rfl, le_add_right _ _⟩

theorem get : Costs 0 (get : ScriptM Machine) := fun _ => ⟨rfl, rfl, le_rfl⟩

theorem modify {g : Machine → Machine}
    (h : ∀ s, (g s).pc = s.pc ∧ (g s).vfExec = s.vfExec ∧ (g s).nCheckSig ≤ s.nCheckSig + k) :
    Costs k (modify g : ScriptM PUnit) := h

theorem bind (hx : Costs j x) (hf : ∀ a, Costs k (f a)) : Costs (j + k) (x >>= f) := by
  intro s
  obtain ⟨hpc, hexec, hcost⟩ := hx s
  rw [bind_apply]
  cases hxs : x s with
  | error e t =>
    rw [hxs] at hpc hexec hcost
    exact ⟨hpc, hexec, hcost.trans (Nat.add_le_add_left (Nat.le_add_right j k) _)⟩
  | ok a t =>
    rw [hxs] at hpc hexec hcost
    obtain ⟨hpc', hexec', hcost'⟩ := hf a t
    refine ⟨hpc'.trans hpc, hexec'.trans hexec, hcost'.trans ?_⟩
    rw [← add_assoc]
    exact Nat.add_le_add_right hcost k

theorem bind₀ (hx : Costs 0 x) (hf : ∀ a, Costs k (f a)) : Costs k (x >>= f) :=
  (hx.bind hf).mono (by omega)

theorem bindGet {g : Machine → ScriptM β} (hf : ∀ s, Costs k (g s)) :
    Costs k (MonadState.get >>= g) :=
  Costs.get.bind₀ hf

theorem bindModify {g : Machine → Machine} {f : PUnit → ScriptM β} (hf : ∀ a, Costs k (f a))
    (hg : ∀ s, (g s).pc = s.pc ∧ (g s).vfExec = s.vfExec ∧ (g s).nCheckSig ≤ s.nCheckSig + j) :
    Costs (j + k) (MonadStateOf.modifyGet (fun s => (PUnit.unit, g s)) >>= f) :=
  (Costs.modify hg).bind hf

theorem ite {p : Prop} [Decidable p] (hx : p → Costs k x) (hy : ¬ p → Costs k y) :
    Costs k (if p then x else y) := by
  split_ifs with hp
  · exact hx hp
  · exact hy hp

theorem of_eq (h : ∀ s, (finalState (x s)).pc = s.pc ∧ (finalState (x s)).vfExec = s.vfExec ∧
    (finalState (x s)).nCheckSig = s.nCheckSig) : Costs 0 x :=
  fun s => ⟨(h s).1, (h s).2.1, (h s).2.2.le⟩

end Costs

/-! ### The accesses -/

theorem returnIf_costs (b : Bool) : Costs 0 (returnIf b) :=
  Costs.ite (fun _ => .throw _) fun _ => .pure _

theorem needs_costs (n : ℕ) : Costs 0 (needs n) := .bindGet fun _ => returnIf_costs _

theorem stacktop_costs (i : ℕ) : Costs 0 (stacktop i) := by
  refine .bindGet fun s => ?_
  cases elementAt s.stack i with
  | none => exact .throw _
  | some vch => exact .pure _

theorem popstack_costs : Costs 0 popstack := by
  refine .of_eq fun s => ?_
  rw [popstack, get_bind_apply]
  cases s.stack <;> exact ⟨rfl, rfl, rfl⟩

theorem pushBack_costs (vch : Valtype) : Costs 0 (pushBack vch) :=
  Costs.modify fun _ => ⟨rfl, rfl, le_rfl⟩

theorem setTop_costs (i : ℕ) (vch : Valtype) : Costs 0 (setTop i vch) :=
  (stacktop_costs i).bind₀ fun _ => .modify fun _ => ⟨rfl, rfl, le_rfl⟩

theorem swapTop_costs (i j : ℕ) : Costs 0 (swapTop i j) :=
  (stacktop_costs i).bind₀ fun _ => (stacktop_costs j).bind₀ fun _ =>
    (setTop_costs i _).bind₀ fun _ =>
    setTop_costs j _

theorem eraseTop_costs (i : ℕ) : Costs 0 (eraseTop i) :=
  (stacktop_costs i).bind₀ fun _ => .modify fun _ => ⟨rfl, rfl, le_rfl⟩

theorem insertTop_costs (i : ℕ) (vch : Valtype) : Costs 0 (insertTop i vch) := by
  refine .of_eq fun s => ?_
  rw [insertTop, get_bind_apply]
  split_ifs <;> exact ⟨rfl, rfl, rfl⟩

theorem popAltstack_costs : Costs 0 popAltstack := by
  refine .of_eq fun s => ?_
  rw [popAltstack, get_bind_apply]
  cases s.altstack <;> exact ⟨rfl, rfl, rfl⟩

theorem castToBigNum_costs (vch : Valtype) (size : ℕ) : Costs 0 (castToBigNum vch size) :=
  Costs.ite (fun _ => .throw _) fun _ => .pure _

theorem castTop_costs {f : ℤ → ScriptM β} (i size : ℕ) (hf : ∀ bn, Costs k (f bn)) :
    Costs k (stacktop i >>= fun vch => castToBigNum vch size >>= f) :=
  (stacktop_costs i).bind₀ fun vch => (castToBigNum_costs vch size).bind₀ hf

theorem addOps_costs (n : ℕ) : Costs 0 (addOps n) := by
  exact .bindModify (j := 0) (fun _ => .bindGet fun _ => returnIf_costs _) fun _ =>
    ⟨rfl, rfl, le_rfl⟩

theorem checkLockTime_costs (txTo : CTransaction) (nIn : ℕ) (nLockTime : ℤ) :
    Costs 0 (checkLockTime txTo nIn nLockTime) := by
  refine .ite (fun _ => .pure _) fun _ => .ite (fun _ => .pure _) fun _ => ?_
  cases txTo.vin[nIn]? with
  | none => exact .throw _
  | some txin => exact .pure _

theorem pushResult_costs (fSuccess fVerify : Bool) : Costs 0 (pushResult fSuccess fVerify) :=
  (pushBack_costs _).bind₀ fun _ => .ite
    (fun _ => .ite (fun _ => popstack_costs) fun _ => .throw _) fun _ => .pure _

/-! ### Checking signatures -/

theorem callCheckSig_costs (vchSig vchPubKey : Valtype) (scriptCode : CScript) :
    Costs 1 (callCheckSig E c vchSig vchPubKey scriptCode) :=
  Costs.ite (fun _ => .bindModify (j := 1) (fun _ => .pure _) fun _ => ⟨rfl, rfl, le_rfl⟩)
    fun _ => (Costs.pure _).mono (zero_le 1)

theorem multiSigLoop_costs (scriptCode : CScript) (nKeysCount nSigsCount isig ikey : ℕ) :
    Costs nKeysCount (multiSigLoop E c scriptCode nKeysCount nSigsCount isig ikey) := by
  induction nKeysCount generalizing nSigsCount isig ikey with
  | zero => cases nSigsCount <;> exact .pure _
  | succ nKeysCount ih =>
    cases nSigsCount with
    | zero => exact (Costs.pure _).mono (zero_le _)
    | succ nSigsCount =>
      refine (stacktop_costs _).bind₀ fun vchSig => (stacktop_costs _).bind₀ fun vchPubKey => ?_
      refine (returnIf_costs _).bind₀ fun _ => ?_
      refine ((callCheckSig_costs vchSig vchPubKey scriptCode).bind (k := nKeysCount) fun fOk =>
        ?_).mono (by omega)
      exact Costs.ite (fun _ => (Costs.pure _).mono (zero_le _)) fun _ => ih _ _ _

theorem dropSignatures_costs (isig k : ℕ) (scriptCode : CScript) :
    Costs 0 (dropSignatures isig k scriptCode) := by
  induction k with
  | zero => exact .pure _
  | succ k ih => exact ih.bind₀ fun _ => (stacktop_costs _).bind₀ fun _ => .pure _

theorem popMany_costs (k : ℕ) : Costs 0 (popMany k) := by
  induction k with
  | zero => exact .pure _
  | succ k ih => exact popstack_costs.bind₀ fun _ => ih

/-- `OP_CHECKMULTISIG` makes as many calls as there are keys, and not more than twenty. -/
theorem checkMultiSigKeys_costs (fVerify : Bool) (nKeysCount : ℤ) :
    Costs (min 20 nKeysCount.toNat) (checkMultiSigKeys E c fVerify nKeysCount) := by
  unfold checkMultiSigKeys
  by_cases hrange : (decide (nKeysCount < 0) || decide (nKeysCount > 20)) = true
  · -- the operation stops before it calls anything
    rw [hrange]
    exact .throw _
  · have hle : nKeysCount.toNat ≤ 20 := by
      simp only [or_eq_true, decide_eq_true_eq] at hrange
      omega
    refine (returnIf_costs _).bind₀ fun _ => (addOps_costs _).bind₀ fun _ =>
      (needs_costs _).bind₀ fun _ => ?_
    refine castTop_costs _ _ fun bnSigs => (returnIf_costs _).bind₀ fun _ =>
      (needs_costs _).bind₀ fun _ => ?_
    refine .bindGet fun s => (dropSignatures_costs _ _ _).bind₀ fun scriptCode => ?_
    refine ((multiSigLoop_costs _ _ _ _ _).bind (k := 0) fun fSuccess => ?_).mono (by omega)
    refine (popMany_costs _).bind₀ fun _ => (needs_costs 1).bind₀ fun _ =>
      (stacktop_costs 1).bind₀ fun _ => ?_
    exact (returnIf_costs _).bind₀ fun _ => popstack_costs.bind₀ fun _ => pushResult_costs _ _

theorem checkMultiSig_costs (fVerify : Bool) : Costs 20 (checkMultiSig E c fVerify) :=
  (needs_costs 1).bind₀ fun _ => castTop_costs _ _ fun _ =>
    (checkMultiSigKeys_costs fVerify _).mono (min_le_left _ _)

/-- The calls that an opcode can make. -/
def Opcode.calls : Opcode → ℕ
  | opCheckSig _ => 1
  | opCheckMultiSig _ => 20
  | _ => 0

/-- The opcodes that touch `vfExec`. -/
def Opcode.conditional : Opcode → Bool
  | opIf _ | opElse | opEndIf => true
  | _ => false

/-- **The cost of every opcode but those for conditionals.** -/
theorem execOpcode_costs (fExec : Bool) (op : Opcode) (hop : op.conditional = false) :
    Costs op.calls (execOpcode E c fExec op) := by
  cases op with
  | opIf | opElse | opEndIf => cases hop
  | opN z => exact pushBack_costs _
  | opNop => exact .pure _
  | opCheckLockTimeVerify =>
    refine .ite (fun _ => returnIf_costs _) fun _ => (needs_costs 1).bind₀ fun _ => ?_
    refine castTop_costs _ _ fun nLockTime => (returnIf_costs _).bind₀ fun _ => ?_
    exact (checkLockTime_costs _ _ _).bind₀ fun _ => returnIf_costs _
  | opUpgradableNop => exact returnIf_costs _
  | opVerify =>
    exact (needs_costs 1).bind₀ fun _ => (stacktop_costs 1).bind₀ fun _ => .ite
      (fun _ => popstack_costs) fun _ => .throw _
  | opReturn => exact .throw _
  | opToAltStack =>
    exact (needs_costs 1).bind₀ fun _ => (stacktop_costs 1).bind₀ fun _ =>
      Costs.bindModify (j := 0) (fun _ => popstack_costs) fun _ => ⟨rfl, rfl, le_rfl⟩
  | opFromAltStack =>
    exact .bindGet fun _ => (returnIf_costs _).bind₀ fun _ => popAltstack_costs.bind₀ fun _ =>
      pushBack_costs _
  | op2Drop => exact (needs_costs 2).bind₀ fun _ => popstack_costs.bind₀ fun _ => popstack_costs
  | op2Dup =>
    exact (needs_costs 2).bind₀ fun _ => (stacktop_costs 2).bind₀ fun _ =>
      (stacktop_costs 1).bind₀ fun _ =>
      (pushBack_costs _).bind₀ fun _ => pushBack_costs _
  | op3Dup =>
    exact (needs_costs 3).bind₀ fun _ => (stacktop_costs 3).bind₀ fun _ =>
      (stacktop_costs 2).bind₀ fun _ =>
      (stacktop_costs 1).bind₀ fun _ => (pushBack_costs _).bind₀ fun _ =>
        (pushBack_costs _).bind₀ fun _ =>
        pushBack_costs _
  | op2Over =>
    exact (needs_costs 4).bind₀ fun _ => (stacktop_costs 4).bind₀ fun _ =>
      (stacktop_costs 3).bind₀ fun _ =>
      (pushBack_costs _).bind₀ fun _ => pushBack_costs _
  | op2Rot =>
    exact (needs_costs 6).bind₀ fun _ => (stacktop_costs 6).bind₀ fun _ =>
      (stacktop_costs 5).bind₀ fun _ =>
      (eraseTop_costs 6).bind₀ fun _ => (eraseTop_costs 5).bind₀ fun _ =>
        (pushBack_costs _).bind₀ fun _ =>
        pushBack_costs _
  | op2Swap =>
    exact (needs_costs 4).bind₀ fun _ => (swapTop_costs 4 2).bind₀ fun _ => swapTop_costs 3 1
  | opIfDup =>
    exact (needs_costs 1).bind₀ fun _ => (stacktop_costs 1).bind₀ fun _ => .ite
      (fun _ => pushBack_costs _) fun _ => .pure _
  | opDepth => exact .bindGet fun _ => pushBack_costs _
  | opDrop => exact (needs_costs 1).bind₀ fun _ => popstack_costs
  | opDup => exact (needs_costs 1).bind₀ fun _ => (stacktop_costs 1).bind₀ fun _ => pushBack_costs _
  | opNip => exact (needs_costs 2).bind₀ fun _ => eraseTop_costs 2
  | opOver =>
    exact (needs_costs 2).bind₀ fun _ => (stacktop_costs 2).bind₀ fun _ => pushBack_costs _
  | opPick fRoll =>
    refine (needs_costs 2).bind₀ fun _ => castTop_costs _ _ fun bn =>
      popstack_costs.bind₀ fun _ => ?_
    refine .bindGet fun _ => (returnIf_costs _).bind₀ fun _ =>
      (stacktop_costs _).bind₀ fun _ => ?_
    exact .ite (fun _ => (eraseTop_costs _).bind₀ fun _ => pushBack_costs _) fun _ =>
      pushBack_costs _
  | opRot =>
    exact (needs_costs 3).bind₀ fun _ => (swapTop_costs 3 2).bind₀ fun _ => swapTop_costs 2 1
  | opSwap => exact (needs_costs 2).bind₀ fun _ => swapTop_costs 2 1
  | opTuck =>
    exact (needs_costs 2).bind₀ fun _ => (stacktop_costs 1).bind₀ fun _ => insertTop_costs 2 _
  | opSize =>
    exact (needs_costs 1).bind₀ fun _ => (stacktop_costs 1).bind₀ fun _ => pushBack_costs _
  | opEqual fVerify =>
    exact (needs_costs 2).bind₀ fun _ => (stacktop_costs 2).bind₀ fun _ =>
      (stacktop_costs 1).bind₀ fun _ =>
      popstack_costs.bind₀ fun _ => popstack_costs.bind₀ fun _ => pushResult_costs _ _
  | unary op =>
    exact (needs_costs 1).bind₀ fun _ => castTop_costs _ _ fun _ => popstack_costs.bind₀ fun _ =>
      pushBack_costs _
  | binary op fVerify =>
    refine (needs_costs 2).bind₀ fun _ => castTop_costs _ _ fun _ => castTop_costs _ _ fun _ => ?_
    refine popstack_costs.bind₀ fun _ => popstack_costs.bind₀ fun _ =>
      (pushBack_costs _).bind₀ fun _ => ?_
    exact .ite (fun _ => (stacktop_costs 1).bind₀ fun _ => .ite (fun _ => popstack_costs)
      fun _ => .throw _) fun _ => .pure _
  | opWithin =>
    refine (needs_costs 3).bind₀ fun _ => castTop_costs _ _ fun _ => castTop_costs _ _ fun _ => ?_
    refine castTop_costs _ _ fun _ => popstack_costs.bind₀ fun _ => popstack_costs.bind₀ fun _ => ?_
    exact popstack_costs.bind₀ fun _ => pushBack_costs _
  | hash op =>
    exact (needs_costs 1).bind₀ fun _ => (stacktop_costs 1).bind₀ fun _ =>
      popstack_costs.bind₀ fun _ =>
      pushBack_costs _
  | opCodeSeparator => exact .modify fun _ => ⟨rfl, rfl, le_rfl⟩
  | opCheckSig fVerify =>
    refine (needs_costs 2).bind₀ fun _ => (stacktop_costs 2).bind₀ fun vchSig => ?_
    refine (stacktop_costs 1).bind₀ fun vchPubKey => .bindGet fun _ =>
      (returnIf_costs _).bind₀ fun _ => ?_
    refine (callCheckSig_costs vchSig vchPubKey _).bind (k := 0) fun fSuccess => ?_
    exact popstack_costs.bind₀ fun _ => popstack_costs.bind₀ fun _ => pushResult_costs _ _
  | opCheckMultiSig fVerify => exact checkMultiSig_costs fVerify
  | invalid => exact .throw _

/-! ### Conditionals -/

/-- How deep in conditionals a script is after an opcode, if it may stand there. -/
def Opcode.depth (depth : ℕ) : Opcode → Option ℕ
  | opIf _ => some (depth + 1)
  | opElse => if depth = 0 then none else some depth
  | opEndIf => if depth = 0 then none else some (depth - 1)
  | _ => some depth

/-- What a run of an opcode says about the script, the calls and the conditionals. -/
structure Steps (op : Opcode) (s : Machine) (r : EStateM.Result ScriptStop Machine Unit) :
    Prop where
  pc : (finalState r).pc = s.pc
  calls : (finalState r).nCheckSig ≤ s.nCheckSig + op.calls
  depth : ∀ t, r = .ok () t → op.depth s.vfExec.length = some t.vfExec.length

/-- The conditionals leave the script and the calls alone, and change the depth. -/
theorem execConditional_steps (fExec : Bool) (op : Opcode) (hop : op.conditional = true)
    (s : Machine) : Steps op s (execOpcode E c fExec op s) := by
  cases op with
  | opIf fNot =>
    cases fExec with
    | false => exact ⟨rfl, le_rfl, fun t h => by cases h; rfl⟩
    | true =>
      cases hst : s.stack with
      | nil =>
        have hrun : execOpcode E c true (.opIf fNot) s = .error .returnFalse s := by
          simp [execOpcode, needs, returnIf, hst, bind_apply]
        rw [hrun]
        exact ⟨rfl, le_rfl, nofun⟩
      | cons vch stack =>
        have hrun : execOpcode E c true (.opIf fNot) s =
            .ok () { s with stack := stack, vfExec := (castToBool vch ^^ fNot) :: s.vfExec } := by
          simp [execOpcode, needs, returnIf, stacktop, elementAt, popstack, hst, bind_apply]
        rw [hrun]
        exact ⟨rfl, le_rfl, fun t h => by cases h; rfl⟩
  | opElse =>
    cases hv : s.vfExec with
    | nil =>
      have hrun : execOpcode E c fExec .opElse s = .error .returnFalse s := by
        simp [execOpcode, returnIf, hv, bind_apply]
      rw [hrun]
      exact ⟨rfl, le_rfl, nofun⟩
    | cons fValue vfExec =>
      have hrun : execOpcode E c fExec .opElse s = .ok ()
        { s with vfExec := (!fValue) :: vfExec } := by
        simp [-bind_pure_comp, execOpcode, returnIf, popExec, hv, bind_apply]
      rw [hrun]
      exact ⟨rfl, le_rfl, fun t h => by cases h; rw [hv]; rfl⟩
  | opEndIf =>
    cases hv : s.vfExec with
    | nil =>
      have hrun : execOpcode E c fExec .opEndIf s = .error .returnFalse s := by
        simp [execOpcode, returnIf, hv, bind_apply]
      rw [hrun]
      exact ⟨rfl, le_rfl, nofun⟩
    | cons fValue vfExec =>
      have hrun : execOpcode E c fExec .opEndIf s = .ok () { s with vfExec := vfExec } := by
        simp [execOpcode, returnIf, popExec, hv, bind_apply]
      rw [hrun]
      exact ⟨rfl, le_rfl, fun t h => by cases h; rw [hv]; rfl⟩
  | _ => cases hop

/-- **What a run of an opcode leaves alone.** -/
theorem execOpcode_steps (fExec : Bool) (op : Opcode) (s : Machine) :
    Steps op s (execOpcode E c fExec op s) := by
  by_cases hop : op.conditional = true
  · exact execConditional_steps fExec op hop s
  · rw [not_eq_true] at hop
    obtain ⟨hpc, hexec, hcalls⟩ := execOpcode_costs (E := E) (c := c) fExec op hop s
    refine ⟨hpc, hcalls, fun t h => ?_⟩
    rw [h] at hexec
    have hdepth : ∀ d, op.depth d = some d := fun d => by cases op <;> first | rfl | cases hop
    rw [hdepth, ← hexec]
    rfl

/-! ### One pass of the loop -/

theorem opcodeOf_spec (opcode : UInt8) :
    ((opcodeOf opcode).conditional = true → 0x63 ≤ opcode.toNat ∧ opcode.toNat ≤ 0x68) ∧
      (opcodeOf opcode).calls = sigOpWeight false 0xff opcode := by
  have hall : ∀ n < 256, ((opcodeOf (UInt8.ofNat n)).conditional = true → 0x63 ≤ n ∧ n ≤ 0x68) ∧
      (opcodeOf (UInt8.ofNat n)).calls = sigOpWeight false 0xff (UInt8.ofNat n) := by
    decide +kernel
  have h := hall opcode.toNat opcode.toNat_lt
  rwa [UInt8.ofNat_toNat] at h

/-- An instruction is pushed, executed or passed over. -/
theorem execInstruction_steps (opcode : UInt8) (vch : Valtype) (s : Machine) :
    Steps (opcodeOf opcode) s (execInstruction E c opcode vch s) := by
  have hskip : ∀ r, finalState r = s ∨ (finalState r = { s with stack := vch :: s.stack }) →
      (opcodeOf opcode).conditional = false → Steps (opcodeOf opcode) s r := by
    intro r hr hcond
    have hdepth : ∀ d, (opcodeOf opcode).depth d = some d := fun d => by
      cases hop : opcodeOf opcode <;> first | rfl | (rw [hop] at hcond; cases hcond)
    rcases hr with hr | hr
      <;> refine ⟨by rw [hr], by rw [hr]; exact le_add_right _ _, fun t h => ?_⟩ <;>
      rw [h] at hr <;> rw [hdepth, show t = _ from hr]
  rw [execInstruction, get_bind_apply]
  by_cases hpush : (s.vfExec.all id && decide (opcode.toNat ≤ 0x4e)) = true
  · rw [if_pos hpush]
    refine hskip _ (.inr rfl) ?_
    by_contra hcond
    have hle := (opcodeOf_spec opcode).1 (not_eq_false _ ▸ hcond)
    simp only [and_eq_true, decide_eq_true_eq] at hpush
    omega
  · rw [if_neg hpush]
    by_cases hexec : (s.vfExec.all id ||
        decide (0x63 ≤ opcode.toNat) && decide (opcode.toNat ≤ 0x68)) = true
    · rw [if_pos hexec]
      exact execOpcode_steps _ _ s
    · rw [if_neg hexec]
      refine hskip _ (.inl rfl) ?_
      by_contra hcond
      have hle := (opcodeOf_spec opcode).1 (not_eq_false _ ▸ hcond)
      simp [hle] at hexec

theorem Steps.before {op : Opcode} {x : ScriptM Unit} {y : ScriptM Unit} (hx : Costs 0 x)
    (hy : ∀ s, Steps op s (y s)) : Steps op s ((x >>= fun _ => y) s) := by
  obtain ⟨hpc, hexec, hcalls⟩ := hx s
  cases hxs : x s with
  | error e t =>
    rw [hxs] at hpc hexec hcalls
    rw [bind_of_error hxs]
    exact ⟨hpc, hcalls.trans (by omega), nofun⟩
  | ok a t =>
    rw [hxs] at hpc hexec hcalls
    rw [bind_of_ok hxs]
    have hsteps := hy t
    refine ⟨hsteps.pc.trans hpc, hsteps.calls.trans (Nat.add_le_add_right hcalls _), fun t' h => ?_⟩
    rw [← hsteps.depth t' h]
    exact congrArg (fun v : List Bool => op.depth v.length) hexec.symm

theorem Steps.after {op : Opcode} {x : ScriptM Unit} {y : ScriptM Unit} (hx : Steps op s (x s))
    (hy : Costs 0 y) : Steps op s ((x >>= fun _ => y) s) := by
  cases hxs : x s with
  | error e t =>
    rw [hxs] at hx
    rw [bind_of_error hxs]
    exact ⟨hx.pc, hx.calls, nofun⟩
  | ok a t =>
    rw [hxs] at hx
    rw [bind_of_ok hxs]
    obtain ⟨hpc, hexec, hcalls⟩ := hy t
    refine ⟨hpc.trans hx.pc, hcalls.trans hx.calls, fun t' h => ?_⟩
    rw [h] at hexec
    rw [hx.depth t rfl]
    exact congrArg (fun v : List Bool => some v.length) hexec.symm

theorem countOpcode_costs (opcode : UInt8) : Costs 0 (countOpcode opcode) :=
  Costs.ite (fun _ => addOps_costs 1) fun _ => .pure _

/-- What one pass does after it has read an instruction. -/
def afterRead (E : ScriptEnv) (c : EvalContext) (opcode : UInt8) (vchPushValue : Valtype) :
    ScriptM Unit := do
  returnIf (decide (vchPushValue.length > maxScriptElementSize))
  countOpcode opcode
  returnIf (disabledOpcodes.contains opcode)
  execInstruction E c opcode vchPushValue
  let s ← get
  returnIf (decide (s.stack.length + s.altstack.length > 1000))

theorem evalStep_eq {opcode : UInt8} {vch : Valtype} {pc : CScript}
    (h : getOp s.pc = some (opcode, vch, pc)) :
    evalStep E c s = afterRead E c opcode vch { s with pc := pc } := by
  rw [evalStep, get_bind_apply]
  simp only [h]
  rfl

theorem evalStep_of_none (h : getOp s.pc = none) : evalStep E c s = .error .returnFalse s := by
  rw [evalStep, get_bind_apply]
  simp only [h]
  rfl

theorem afterRead_steps (opcode : UInt8) (vch : Valtype) (s : Machine) :
    Steps (opcodeOf opcode) s (afterRead E c opcode vch s) := by
  refine .before (returnIf_costs _) fun s => .before (countOpcode_costs opcode) fun s =>
    ?_
  refine .before (returnIf_costs _) fun s => (execInstruction_steps opcode vch s).after ?_
  exact .bindGet fun _ => returnIf_costs _

/-- **What one pass of the loop does** to the script, the calls and the conditionals. -/
theorem evalStep_spec {opcode : UInt8} {vch : Valtype} {pc : CScript}
    (h : getOp s.pc = some (opcode, vch, pc)) :
    (finalState (evalStep E c s)).pc = pc ∧
      (finalState (evalStep E c s)).nCheckSig ≤ s.nCheckSig + (opcodeOf opcode).calls ∧
      ∀ t, evalStep E c s = .ok () t → (opcodeOf opcode).depth s.vfExec.length =
      some t.vfExec.length := by
  rw [evalStep_eq h]
  have hsteps := afterRead_steps (E := E) (c := c) opcode vch { s with pc := pc }
  exact ⟨hsteps.pc, hsteps.calls, hsteps.depth⟩

theorem evalLoop_nil {k : ℕ} (h : s.pc = []) : evalLoop E c k s = .ok () s := by
  cases k with
  | zero => rfl
  | succ k =>
    rw [evalLoop, get_bind_apply, h]
    rfl

theorem evalLoop_succ {k : ℕ} (h : s.pc ≠ []) :
    evalLoop E c (k + 1) s = (evalStep E c >>= fun _ => evalLoop E c k) s := by
  rw [evalLoop, get_bind_apply, if_neg (by simpa using h)]

end Espers
