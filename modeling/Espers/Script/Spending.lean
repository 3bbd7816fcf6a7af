import Espers.Lib.Matching
import Espers.Script.Checks
import Espers.Script.Solver

/-!
# Running standard scripts

What the script machine does with the standard scripts, on the stacks that satisfy them.

* `Parses script ops` : the script reads as these opcodes, with the data of each.
* `findAndDelete_of_parses` : a signature that is no data of the script is not found in it.
* `evalScript_pushAll` : a script of pushes.
* `evalScript_pubKey`, `evalScript_pubKeyHash`, `evalScript_multiSig` : the standard scripts end
  with `true` alone on the stack.
-/

namespace Espers

open Exec List Bool Nat UInt8 Matching

variable {E : ScriptEnv} {c : EvalContext} {s t : Machine} {opcode : UInt8} {vch : Valtype}
  {script pc : CScript}

/-! ### Scripts as opcodes -/

/-- The script reads as these opcodes, with the data of each. -/
inductive Parses : CScript → List (UInt8 × Valtype) → Prop
  | nil : Parses [] []
  | cons {script pc : CScript} {opcode : UInt8} {vch : Valtype} {ops : List (UInt8 × Valtype)}
      (hget : getOp script = some (opcode, vch, pc)) (hrest : Parses pc ops) :
      Parses script ((opcode, vch) :: ops)

variable {ops : List (UInt8 × Valtype)}

theorem Parses.length_le (h : Parses script ops) :
    script.length ≤ (ops.map fun op => op.2.length + 5).sum := by
  induction h with
  | nil => exact le_rfl
  | cons hget _ ih =>
    obtain ⟨head, rfl, -, hlen⟩ := getOp_split hget
    simp only [length_append, map_cons, sum_cons]
    omega

theorem Parses.unique {ops ops' : List (UInt8 × Valtype)} (h : Parses script ops)
    (h' : Parses script ops') : ops = ops' := by
  induction h generalizing ops' with
  | nil =>
    cases h' with
    | nil => rfl
    | cons hget _ => cases hget
  | cons hget _ ih =>
    cases h' with
    | nil => cases hget
    | cons hget' hrest =>
      rw [hget] at hget'
      cases hget'
      rw [ih hrest]

theorem Parses.getOp_of_mem (h : Parses script ops) (op : UInt8 × Valtype) (hop : op ∈ ops) :
    ∃ script pc, getOp script = some (op.1, op.2, pc) := by
  induction h with
  | nil => cases hop
  | cons hget _ ih =>
    cases hop with
    | head => exact ⟨_, _, hget⟩
    | tail _ hmem => exact ih hmem

variable {d : Valtype}

theorem getOp_of_prefix (hlen : d.length < 0x4c) (h : (pushData d).isPrefixOf script = true) :
    ∃ pc, getOp script = some (UInt8.ofNat d.length, d, pc) := by
  obtain ⟨rest, rfl⟩ := isPrefixOf_iff_prefix.mp h
  have hnat : (UInt8.ofNat d.length).toNat = d.length := by
    rw [toNat_ofNat']
    omega
  rw [pushData, if_pos hlen, cons_append, getOp, if_pos (by omega), pushLength, hnat, if_pos hlen]
  simp

/-- **Data that the script does not push is not deleted from it.** -/
theorem findAndDelete_of_parses
    (hlen : d.length < 0x4c) (h : Parses script ops) (hd : ∀ op ∈ ops, op.2 ≠ d) :
    findAndDelete (pushData d) script = script := by
  have hloop : ∀ k, script.length < k → findAndDeleteLoop (pushData d) k script = script := by
    induction h with
    | nil =>
      intro k hk
      obtain ⟨k, rfl⟩ : ∃ n, k = n + 1 := ⟨k - 1, by simp at hk; omega⟩
      rw [findAndDeleteLoop, pushData, if_pos hlen]
      rfl
    | @cons script pc opcode vch ops hget hrest ih =>
      intro k hk
      obtain ⟨k, rfl⟩ : ∃ n, k = n + 1 := ⟨k - 1, by omega⟩
      have hshort := length_of_getOp hget
      obtain ⟨head, hscript, -⟩ := getOp_split hget
      have hnot : ¬ (pushData d).isPrefixOf script = true := by
        intro hprefix
        obtain ⟨pc', hget'⟩ := getOp_of_prefix hlen hprefix
        rw [hget] at hget'
        cases hget'
        exact hd _ mem_cons_self rfl
      rw [findAndDeleteLoop, if_neg hnot]
      simp only [hget]
      rw [ih (fun op hop => hd op (.tail _ hop)) k (by omega), hscript]
      simp
  unfold findAndDelete
  split_ifs
  · rfl
  · exact hloop _ (lt_succ_self _)

/-! ### Runs of whole instructions -/

/-- The machine gets from one state to another by whole instructions. -/
inductive Runs (E : ScriptEnv) (c : EvalContext) : Machine → Machine → Prop
  | refl (s : Machine) : Runs E c s s
  | step {s t u : Machine} (h : evalStep E c s = .ok () t) (hrest : Runs E c t u) : Runs E c s u

theorem Runs.trans {u : Machine} (h : Runs E c s t) (h' : Runs E c t u) : Runs E c s u := by
  induction h with
  | refl => exact h'
  | step hstep _ ih => exact .step hstep (ih h')

theorem Runs.single (h : evalStep E c s = .ok () t) : Runs E c s t := .step h (.refl t)

/-- A run to the end of the script is what the loop makes. -/
theorem Runs.evalLoop (h : Runs E c s t) (hend : t.pc = []) {k : ℕ} (hk : s.pc.length ≤ k) :
    evalLoop E c k s = .ok () t := by
  induction h generalizing k with
  | refl => exact evalLoop_nil hend
  | @step s s' t hstep _ ih =>
    cases hget : getOp s.pc with
    | none =>
      rw [evalStep_of_none hget] at hstep
      cases hstep
    | some r =>
      obtain ⟨opcode, vch, pc⟩ := r
      have hpc := (evalStep_spec (E := E) (c := c) hget).1
      rw [hstep] at hpc
      have hlt := length_of_getOp hget
      obtain ⟨k, rfl⟩ : ∃ n, k = n + 1 := ⟨k - 1, by omega⟩
      rw [evalLoop_succ (fun hnil => by rw [hnil] at hget; cases hget), bind_of_ok hstep]
      exact ih hend (by rw [show s'.pc = pc from hpc]; omega)

theorem evalScript_of_runs {stack : List Valtype} (hlen : script.length ≤ 10000)
    (h : Runs E c (.start stack script) t) (hend : t.pc = []) (hexec : t.vfExec = []) :
    evalScript E c stack script = (true, t.stack) := by
  have hrun : runScript E c stack script = .ok () t := h.evalLoop hend le_rfl
  rw [evalScript, if_neg (by omega), hrun]
  simp only [hexec, isEmpty_nil]

theorem returnIf_of_not {b : Bool} (h : b = false) : returnIf b s = .ok () s := by
  rw [h]
  rfl

theorem isFailing_size {vch : Valtype} (h : vch.length ≤ maxScriptElementSize) :
    decide (vch.length > maxScriptElementSize) = false := by
  simpa using h

theorem not_disabled (hop : opcode.toNat ≤ 0x60) : disabledOpcodes.contains opcode = false := by
  have hall : ∀ n < 0x61, disabledOpcodes.contains (ofNat n) = false := by decide
  have := hall opcode.toNat (by omega)
  rwa [UInt8.ofNat_toNat] at this

/-- A push. -/
theorem evalStep_data (hget : getOp s.pc = some (opcode, vch, pc)) (hop : opcode.toNat ≤ 0x4e)
    (hexec : s.vfExec = []) (hlen : vch.length ≤ maxScriptElementSize)
    (hsize : s.stack.length + s.altstack.length < 1000) :
    evalStep E c s = .ok () { s with pc := pc, stack := vch :: s.stack } := by
  have hinstr : execInstruction E c opcode vch { s with pc := pc } =
      .ok () { s with pc := pc, stack := vch :: s.stack } := by
    rw [execInstruction, get_bind_apply, if_pos (by simp [hexec, hop])]
    rfl
  rw [evalStep_eq hget, afterRead, bind_of_ok (returnIf_of_not (isFailing_size hlen)),
    bind_of_ok (countOpcode_of_le (by omega)),
    bind_of_ok (returnIf_of_not (not_disabled (by omega))), bind_of_ok hinstr, get_bind_apply]
  refine returnIf_of_not ?_
  simp only [length_cons, decide_eq_false_iff_not]
  omega

theorem eq_of_evalStep_data (hget : getOp s.pc = some (opcode, vch, pc)) (hop : opcode.toNat ≤ 0x4e)
    (hexec : s.vfExec = []) (h : evalStep E c s = .ok () t) : vch.length ≤ maxScriptElementSize ∧
      t = { s with pc := pc, stack := vch :: s.stack } := by
  obtain ⟨hsize, h⟩ := execInstruction_of_evalStep hget (by omega) h
  rw [execInstruction, get_bind_apply, if_pos (by simp [hexec, hop])] at h
  cases h
  exact ⟨hsize, rfl⟩

/-- A small integer: `OP_0`, or `OP_1` to `OP_16`. -/
def SmallInteger (opcode : UInt8) : Prop := opcode = 0 ∨ 0x51 ≤ opcode.toNat ∧ opcode.toNat ≤ 0x60

theorem SmallInteger.data_eq_nil (hop : SmallInteger opcode)
    (h : getOp script = some (opcode, vch, pc)) : vch = [] :=
  Espers.data_eq_nil h (Or.imp_right (fun hrange => by omega) hop)

/-- The number of an opcode, as the machine pushes it. -/
theorem evalStep_number (hget : getOp s.pc = some (opcode, vch, pc))
    (hop : SmallInteger opcode) (hexec : s.vfExec = [])
    (hsize : s.stack.length + s.altstack.length < 1000) :
    evalStep E c s = .ok ()
    { s with pc := pc, stack := bnGetvch (decodeOpN opcode : ℕ) :: s.stack } := by
  rcases hop with rfl | ⟨hlow, hhigh⟩
  · obtain rfl := data_eq_nil hget (.inl rfl)
    exact evalStep_data hget (by decide) hexec (zero_le _) hsize
  · obtain rfl := data_eq_nil hget (.inr (by omega))
    have hdecode : decodeOpN opcode = opcode.toNat - 0x50 := by
      rw [decodeOpN, if_neg]
      rintro rfl
      exact absurd hlow (by decide)
    have hinstr : execInstruction E c opcode [] { s with pc := pc } =
        .ok () { s with pc := pc, stack := bnGetvch (decodeOpN opcode : ℕ) :: s.stack } := by
      rw [execInstruction, get_bind_apply]
      simp only [hexec]
      rw [if_neg (by simp; omega), opcodeOf_number hlow hhigh, hdecode]
      rfl
    rw [evalStep_eq hget, afterRead, bind_of_ok (returnIf_of_not (by decide)),
      bind_of_ok (countOpcode_of_le hhigh), bind_of_ok (returnIf_of_not (not_disabled hhigh)),
      bind_of_ok hinstr, get_bind_apply]
    refine returnIf_of_not ?_
    simp only [length_cons, decide_eq_false_iff_not]
    omega

/-- An opcode that is not a push. -/
theorem evalStep_exec (hget : getOp s.pc = some (opcode, vch, pc)) (hop : 0x60 < opcode.toNat)
    (hdisabled : disabledOpcodes.contains opcode = false) (hexec : s.vfExec = [])
    (hops : s.nOpCount < 201) (hrun : execOpcode E c true (opcodeOf opcode)
    { s with pc := pc, nOpCount := s.nOpCount + 1 } = .ok () t)
    (hsize : t.stack.length + t.altstack.length ≤ 1000) : evalStep E c s = .ok () t := by
  obtain rfl := data_eq_nil hget (.inr (by omega))
  have hcount : countOpcode opcode { s with pc := pc } = .ok () { s with pc := pc, nOpCount :=
    s.nOpCount + 1 } := by
    rw [countOpcode, if_pos hop, addOps, modify_bind_apply, get_bind_apply]
    refine returnIf_of_not ?_
    simp only [decide_eq_false_iff_not]
    omega
  have hinstr : execInstruction E c opcode [] { s with pc := pc, nOpCount := s.nOpCount + 1 } =
    .ok () t := by
    rw [execInstruction, get_bind_apply]
    simp only [hexec]
    rw [if_neg (by simp; omega)]
    rwa [hexec] at hrun
  rw [evalStep_eq hget, afterRead, bind_of_ok (returnIf_of_not (by decide)), bind_of_ok hcount,
    bind_of_ok (returnIf_of_not hdisabled), bind_of_ok hinstr, get_bind_apply]
  refine returnIf_of_not ?_
  simp only [decide_eq_false_iff_not]
  omega

/-! ### Scripts of pushes -/

/-- The script that pushes these elements. -/
def pushAll (args : List Valtype) : CScript := (args.map pushData).flatten

theorem pushAll_cons (d : Valtype) (args : List Valtype) :
    pushAll (d :: args) = pushData d ++ pushAll args := by
  rfl

theorem pushAll_append (args args' : List Valtype) :
    pushAll (args ++ args') = pushAll args ++ pushAll args' := by
  simp [pushAll]

theorem pushAll_singleton (d : Valtype) : pushAll [d] = pushData d := by
  simp [pushAll]

theorem toNat_ofNat_lt {n : ℕ} (h : n < 256) : (UInt8.ofNat n).toNat = n := by
  rw [toNat_ofNat']
  omega

/-- Data is read back from the push that begins with its length, in one, two, three or five
bytes. -/
theorem getOp_pushData_of_lt (hlen : d.length < 2 ^ 32) (rest : CScript) :
    ∃ opcode : UInt8, opcode.toNat ≤ 0x4e ∧ getOp (pushData d ++ rest) =
    some (opcode, d, rest) := by
  unfold pushData
  split_ifs with h1 h2 h3
  · have hnat := toNat_ofNat_lt (show d.length < 256 by omega)
    refine ⟨ofNat d.length, by omega, ?_⟩
    rw [cons_append, getOp, if_pos (by omega), pushLength, hnat, if_pos h1]
    simp
  · have hnat := toNat_ofNat_lt (show d.length < 256 by omega)
    have hread : pushLength 0x4c (ofNat d.length :: (d ++ rest)) =
      some (d.length, d ++ rest) := by
      simp [pushLength, ofBytes, hnat]
    rw [cons_append, cons_append, getOp, if_pos (by decide), hread]
    simp
  · have hlow := toNat_ofNat_lt (show d.length % 256 < 256 by omega)
    have hhigh := toNat_ofNat_lt (show d.length / 256 < 256 by omega)
    have hbytes : ofBytes [ofNat (d.length % 256), ofNat (d.length / 256)] =
      d.length := by
      simp only [ofBytes, map_cons, map_nil, ofDigits_cons, ofDigits_nil]
      omega
    have hread : pushLength 0x4d
      (ofNat (d.length % 256) :: ofNat (d.length / 256) :: (d ++ rest)) =
        some (d.length, d ++ rest) := by
      simp [pushLength, hbytes]
    rw [cons_append, cons_append, cons_append, getOp, if_pos (by decide), hread]
    simp
  · refine ⟨0x4e, by decide, ?_⟩
    obtain ⟨bytes, hb⟩ : ∃ bytes, bytes = [UInt8.ofNat (d.length % 256),
      ofNat (d.length / 256 % 256), ofNat (d.length / 65536 % 256),
      ofNat (d.length / 16777216 % 256)] := ⟨_, rfl⟩
    have hbytes : ofBytes bytes = d.length := by
      have hdig := fun k : ℕ => toNat_ofNat_lt (show d.length / k % 256 < 256 by omega)
      have hlow := toNat_ofNat_lt (show d.length % 256 < 256 by omega)
      simp only [hb, ofBytes, map_cons, map_nil, hdig, ofDigits_cons, ofDigits_nil]
      omega
    have hfour : bytes.length = 4 := by
      rw [hb]
      rfl
    have hread : pushLength 0x4e (bytes ++ (d ++ rest)) = some (d.length, d ++ rest) := by
      have hk : ∀ s, pushLength 0x4e s = if s.length < 4 then none else
        some (ofBytes (s.take 4), s.drop 4) := fun _ => rfl
      rw [hk, if_neg (by rw [length_append]; omega), take_left' hfour, drop_left' hfour, hbytes]
    have happend : UInt8.ofNat (d.length % 256) :: UInt8.ofNat (d.length / 256 % 256) ::
        ofNat (d.length / 65536 % 256) :: ofNat (d.length / 16777216 % 256) ::
          (d ++ rest) = bytes ++ (d ++ rest) := by
      rw [hb]
      rfl
    rw [cons_append, cons_append, cons_append, cons_append, cons_append,
      happend, getOp, if_pos (by decide), hread]
    simp

theorem getOp_pushData (hlen : d.length ≤ maxScriptElementSize) (rest : CScript) :
    ∃ opcode : UInt8, opcode.toNat ≤ 0x4e ∧ getOp (pushData d ++ rest) =
    some (opcode, d, rest) :=
  getOp_pushData_of_lt (by rw [maxScriptElementSize] at hlen; omega) rest

variable {args : List Valtype}

/-- The elements are pushed one after the other. -/
theorem runs_pushAll (hargs : ∀ d ∈ args, d.length ≤ maxScriptElementSize)
    (hpc : s.pc = pushAll args ++ script) (hexec : s.vfExec = [])
    (hsize : s.stack.length + args.length + s.altstack.length ≤ 1000) :
    Runs E c s { s with pc := script, stack := args.reverse ++ s.stack } := by
  induction args generalizing s with
  | nil =>
    have hs : { s with pc := script, stack := s.stack } = s := by
      rw [show script = s.pc from hpc.symm]
    rw [reverse_nil, nil_append, hs]
    exact .refl s
  | cons d args ih =>
    obtain ⟨opcode, hop, hget⟩ := getOp_pushData (hargs d mem_cons_self)
      (pushAll args ++ script)
    have hpc' : s.pc = pushData d ++ (pushAll args ++ script) := by
      rw [hpc, pushAll_cons, append_assoc]
    rw [← hpc'] at hget
    simp only [length_cons] at hsize
    have hstep := evalStep_data (E := E) (c := c) hget hop hexec (hargs d mem_cons_self)
      (by omega)
    refine .step hstep ?_
    have hrest := ih (s := { s with pc := pushAll args ++ script, stack := d :: s.stack })
      (fun d hd => hargs d (.tail _ hd)) rfl hexec (by simp only [length_cons]; omega)
    simp only [reverse_cons, append_assoc]
    exact hrest

/-- **A script of pushes** leaves what it pushes. -/
theorem evalScript_pushAll
    (hargs : ∀ d ∈ args, d.length ≤ maxScriptElementSize) (hlen : (pushAll args).length ≤ 10000)
    (hsize : args.length ≤ 1000) : evalScript E c [] (pushAll args) = (true, args.reverse) := by
  have hrun := runs_pushAll (E := E) (c := c) (s := .start [] (pushAll args)) hargs
    (append_nil _).symm rfl (by simpa [Machine.start] using hsize)
  rw [evalScript_of_runs hlen hrun rfl rfl]
  simp [Machine.start]

/-- The loop over pushes of data, by induction on the pushes. -/
theorem evalLoop_pushes {k : ℕ} (hparse : Parses s.pc ops)
    (hops : ∀ op ∈ ops, op.1.toNat ≤ 0x4e) (hexec : s.vfExec = []) (hk : s.pc.length ≤ k)
    (h : evalLoop E c k s = .ok () t) : t.stack = (ops.map Prod.snd).reverse ++ s.stack ∧
      ∀ op ∈ ops, op.2.length ≤ maxScriptElementSize := by
  induction ops generalizing s k with
  | nil =>
    have hnil : s.pc = [] := by
      generalize s.pc = script at hparse
      cases hparse
      rfl
    rw [evalLoop_nil hnil] at h
    cases h
    exact ⟨rfl, fun _ hmem => absurd hmem not_mem_nil⟩
  | cons op ops ih =>
    obtain ⟨pc, hget, hrest⟩ : ∃ pc, getOp s.pc = some (op.1, op.2, pc) ∧ Parses pc ops := by
      generalize s.pc = script at hparse
      cases hparse with
      | cons hget hrest => exact ⟨_, hget, hrest⟩
    have hlt := length_of_getOp hget
    obtain ⟨k, rfl⟩ : ∃ n, k = n + 1 := ⟨k - 1, by omega⟩
    rw [evalLoop_succ (fun hnil => by rw [hnil] at hget; cases hget)] at h
    obtain ⟨_, s', hstep, h⟩ := bind_eq_ok.mp h
    obtain ⟨hsize, rfl⟩ := eq_of_evalStep_data hget (hops op (.head _)) hexec hstep
    obtain ⟨hstack, hsizes⟩ := ih (s := { s with pc := pc, stack := op.2 :: s.stack }) hrest
      (fun op hmem => hops op (.tail _ hmem)) hexec (by show pc.length ≤ k; omega) h
    refine ⟨by rw [hstack]; simp, ?_⟩
    rintro op' (_ | ⟨_, hmem⟩)
    · exact hsize
    · exact hsizes op' hmem

/-- **A script of pushes in any form** leaves what it pushes, when it is not stopped. -/
theorem evalScript_pushes (hparse : Parses script ops)
    (hops : ∀ op ∈ ops, op.1.toNat ≤ 0x4e) (h : (evalScript E c [] script).1 = true) :
    (evalScript E c [] script).2 = (ops.map Prod.snd).reverse ∧
      ∀ op ∈ ops, op.2.length ≤ maxScriptElementSize := by
  unfold evalScript at h ⊢
  by_cases hlen : script.length > 10000
  · rw [if_pos hlen] at h
    cases h
  rw [if_neg hlen] at h ⊢
  cases hrun : runScript E c [] script with
  | error e t =>
    rw [hrun] at h
    cases h
  | ok u t =>
    obtain ⟨hstack, hsizes⟩ := evalLoop_pushes (s := .start [] script) hparse hops rfl le_rfl hrun
    refine ⟨?_, hsizes⟩
    show t.stack = _
    rw [hstack]
    exact append_nil _

/-- It consists of pushes only. -/
theorem isPushOnly_pushAll
    (hargs : ∀ d ∈ args, d.length ≤ maxScriptElementSize) : isPushOnly (pushAll args) = true := by
  have hloop : ∀ k, (pushAll args).length ≤ k → pushOnlyLoop k (pushAll args) = true := by
    induction args with
    | nil =>
      intro k _
      cases k <;> rfl
    | cons d args ih =>
      intro k hk
      obtain ⟨opcode, hop, hget⟩ := getOp_pushData (hargs d mem_cons_self) (pushAll args)
      rw [pushAll_cons] at hk ⊢
      have hlt := length_of_getOp hget
      obtain ⟨k, rfl⟩ : ∃ n, k = n + 1 := ⟨k - 1, by omega⟩
      rw [pushOnlyLoop]
      · simp only [hget]
        rw [if_neg (by omega)]
        exact ih (fun d hd => hargs d (.tail _ hd)) k (by omega)
      · intro hnil
        rw [hnil] at hget
        cases hget
  exact hloop _ le_rfl

/-! ### Opcodes on the stacks of standard scripts -/

variable {rest : List Valtype} {vchSig vchPubKey : Valtype} {scriptCode : CScript}

/-- The encodings are good, and so is the signature. -/
structure Accepts (E : ScriptEnv) (c : EvalContext) (scriptCode : CScript)
    (vchSig vchPubKey : Valtype) : Prop where
  sigEncoding : checkSigEncoding vchSig c.flags = true
  keyEncoding : isCompressedOrUncompressedPubKey vchPubKey = true
  signature : checkSig E vchSig vchPubKey scriptCode c.txTo c.nIn c.nHashType = true

section

variable (hsig : checkSigEncoding vchSig c.flags = true)
  (hkey : isCompressedOrUncompressedPubKey vchPubKey = true)
include hsig hkey

theorem strictEncoding_ok : strictEncoding c vchSig vchPubKey s = .ok () s := by
  rw [strictEncoding, hsig, hkey]
  exact returnIf_of_not (and_false _)

theorem callCheckSig_ok : callCheckSig E c vchSig vchPubKey scriptCode s =
      .ok (checkSig E vchSig vchPubKey scriptCode c.txTo c.nIn c.nHashType)
        { s with nCheckSig := s.nCheckSig + 1 } := by
  rw [callCheckSig, hsig, hkey, if_pos (by decide), modify_bind_apply]
  rfl

end

/-- The machine outside of conditionals, with nothing put aside. -/
def Machine.plain (stack : List Valtype) (nOpCount : ℕ) (pc code : CScript) (nCheckSig : ℕ) :
    Machine :=
  ⟨stack, [], [], nOpCount, pc, code, nCheckSig⟩

section Opcodes

variable {k n : ℕ} {code : CScript}

theorem execOpcode_dup : execOpcode E c true .opDup (.plain (vch :: rest) k pc code n) =
    .ok () (.plain (vch :: vch :: rest) k pc code n) := by
  simp [execOpcode, needs, returnIf, stacktop, elementAt, pushBack, Machine.plain, bind_apply]

theorem execOpcode_hash160 : execOpcode E c true (.hash .opHash160)
    (.plain (vch :: rest) k pc code n) = .ok ()
    (.plain (Wire.writeBits 20 (E.hash160 vch) :: rest) k pc code n) := by
  simp [execOpcode, needs, returnIf, stacktop, elementAt, popstack, pushBack, HashOp.eval,
    Machine.plain, bind_apply]

theorem execOpcode_equalVerify : execOpcode E c true (.opEqual true)
    (.plain (vch :: vch :: rest) k pc code n) = .ok () (.plain rest k pc code n) := by
  simp [execOpcode, needs, returnIf, stacktop, elementAt, popstack, pushBack, pushResult,
    Machine.plain, bind_apply]

theorem execOpcode_equal : execOpcode E c true (.opEqual false)
    (.plain (vch :: vch :: rest) k pc code n) = .ok () (.plain ([1] :: rest) k pc code n) := by
  simp [execOpcode, needs, returnIf, stacktop, elementAt, popstack, pushBack, pushResult, vchBool,
    Machine.plain, bind_apply]

theorem execOpcode_checkSig (hacc : Accepts E c (findAndDelete (pushData vchSig) code)
    vchSig vchPubKey) : execOpcode E c true (.opCheckSig false)
    (.plain (vchPubKey :: vchSig :: rest) k pc code n) =
      .ok () (.plain ([1] :: rest) k pc code (n + 1)) := by
  let s : Machine := .plain (vchPubKey :: vchSig :: rest) k pc code n
  have hneeds : needs 2 s = .ok () s := needs_ok (by simp [s, Machine.plain])
  have htop2 : stacktop 2 s = .ok vchSig s := rfl
  have htop1 : stacktop 1 s = .ok vchPubKey s := rfl
  rw [execOpcode, bind_of_ok hneeds, bind_of_ok htop2, bind_of_ok htop1, get_bind_apply]
  rw [bind_of_ok (strictEncoding_ok hacc.sigEncoding hacc.keyEncoding),
    bind_of_ok (callCheckSig_ok hacc.sigEncoding hacc.keyEncoding)]
  rw [show s.pbegincodehash = code from rfl, hacc.signature]
  simp [popstack, pushBack, pushResult, vchBool, Machine.plain, bind_apply, s]

end Opcodes

/-! ### Signatures of several keys -/

theorem stacktop_of_prefix {i : ℕ} {l : List Valtype} (h : vch :: l <+: s.stack.drop i) :
    stacktop (i + 1) s = .ok vch s ∧ l <+: s.stack.drop (i + 1) := by
  obtain ⟨tail, htail⟩ := h
  have hget : s.stack[i]? = some vch := by
    rw [← head?_drop, ← htail]
    rfl
  refine ⟨?_, tail, ?_⟩
  · rw [stacktop, get_bind_apply, elementAt, hget]
    rfl
  · rw [← tail_drop, ← htail]
    rfl

/-- **The loop takes the first match of every signature**, by induction on the keys that are
left. -/
theorem multiSigLoop_eq (scriptCode : CScript) {sigs keys : List Valtype} {i k : ℕ}
    (hsigs : sigs <+: s.stack.drop i) (hkeys : keys <+: s.stack.drop k)
    (hsigEnc : ∀ sig ∈ sigs, checkSigEncoding sig c.flags = true)
    (hkeyEnc : ∀ key ∈ keys, isCompressedOrUncompressedPubKey key = true) :
    ∃ n, multiSigLoop E c scriptCode keys.length sigs.length (i + 1) (k + 1) s =
      .ok (greedy (fun sig key => checkSig E sig key scriptCode c.txTo c.nIn c.nHashType)
        keys sigs) { s with nCheckSig := n } := by
  induction keys generalizing sigs i k s with
  | nil => cases sigs <;> exact ⟨_, rfl⟩
  | cons key keys ih =>
    cases sigs with
    | nil => exact ⟨_, rfl⟩
    | cons sig sigs =>
      obtain ⟨htopSig, hsigs'⟩ := stacktop_of_prefix hsigs
      obtain ⟨htopKey, hkeys'⟩ := stacktop_of_prefix hkeys
      have hsig := hsigEnc sig mem_cons_self
      have hkey := hkeyEnc key mem_cons_self
      rw [length_cons, length_cons, multiSigLoop, bind_of_ok htopSig, bind_of_ok htopKey,
        bind_of_ok (strictEncoding_ok hsig hkey), bind_of_ok (callCheckSig_ok hsig hkey),
        greedy]
      have hkeyEnc' : ∀ key ∈ keys, isCompressedOrUncompressedPubKey key = true := fun key hmem =>
        hkeyEnc key (.tail _ hmem)
      cases hcheck : checkSig E sig key scriptCode c.txTo c.nIn c.nHashType with
      | true =>
        obtain ⟨n, hrun⟩ := ih (s := { s with nCheckSig := s.nCheckSig + 1 }) hsigs' hkeys'
          (fun sig hmem => hsigEnc sig (.tail _ hmem)) hkeyEnc'
        simp only [if_true]
        split_ifs with hmore
        · exact ⟨_, by rw [decide_eq_false (by omega), Bool.false_and]; rfl⟩
        · exact ⟨n, by rw [hrun, decide_eq_true (by omega), Bool.true_and]⟩
      | false =>
        obtain ⟨n, hrun⟩ := ih (s := { s with nCheckSig := s.nCheckSig + 1 }) hsigs hkeys'
          hsigEnc hkeyEnc'
        rw [length_cons] at hrun
        simp only [false_eq_true, if_false]
        split_ifs with hmore
        · exact ⟨_, by rw [decide_eq_false (by omega), Bool.false_and]; rfl⟩
        · exact ⟨n, by rw [hrun, decide_eq_true (by omega), Bool.true_and]⟩

/-- The script without the signatures. -/
def withoutSignatures (sigs : List Valtype) (scriptCode : CScript) : CScript :=
  sigs.foldl (fun scriptCode vchSig => findAndDelete (pushData vchSig) scriptCode) scriptCode

variable {sigs : List Valtype}

theorem withoutSignatures_of_absent
    (hdel : ∀ sig ∈ sigs, findAndDelete (pushData sig) scriptCode = scriptCode) :
    withoutSignatures sigs scriptCode = scriptCode := by
  induction sigs with
  | nil => rfl
  | cons sig sigs ih =>
    rw [withoutSignatures, foldl_cons, hdel sig mem_cons_self]
    exact ih fun sig hmem => hdel sig (.tail _ hmem)

theorem dropSignatures_eq (scriptCode : CScript) {i : ℕ}
    (hsigs : sigs <+: s.stack.drop i) {k : ℕ} (hk : k ≤ sigs.length) :
    dropSignatures (i + 1) k scriptCode s = .ok (withoutSignatures (sigs.take k) scriptCode) s := by
  induction k with
  | zero => rfl
  | succ k ih =>
    have hlt : k < sigs.length := by omega
    have hget : s.stack[i + k]? = some sigs[k] := by
      obtain ⟨tail, htail⟩ := hsigs
      rw [← getElem?_drop, ← htail, getElem?_append_left hlt, getElem?_eq_getElem hlt]
    have htop : stacktop (i + 1 + k) s = .ok sigs[k] s := by
      rw [show i + 1 + k = (i + k) + 1 by omega, stacktop, get_bind_apply, elementAt, hget]
      rfl
    have htake : withoutSignatures (sigs.take (k + 1)) scriptCode =
        findAndDelete (pushData sigs[k]) (withoutSignatures (sigs.take k) scriptCode) := by
      rw [take_add_one, getElem?_eq_getElem hlt, withoutSignatures, foldl_append]
      rfl
    rw [dropSignatures, bind_of_ok (ih (by omega)), bind_of_ok htop, htake]
    rfl

theorem popMany_ok {l : List Valtype} (h : s.stack = l ++ rest) :
    popMany l.length s = .ok () { s with stack := rest } := by
  induction l generalizing s with
  | nil =>
    rw [nil_append] at h
    rw [← h]
    rfl
  | cons vch l ih =>
    have hpop : popstack s = .ok () { s with stack := l ++ rest } := by
      rw [popstack, get_bind_apply, h]
      rfl
    rw [length_cons, popMany, bind_of_ok hpop]
    exact ih rfl

theorem addOps_ok {n : ℕ} (h : s.nOpCount + n ≤ 201) :
    addOps n s = .ok () { s with nOpCount := s.nOpCount + n } := by
  refine returnIf_of_not ?_
  simp only [decide_eq_false_iff_not]
  omega

theorem castToBigNum_small {n : ℕ} (hn : n ≤ 20) : castToBigNum (bnGetvch n) 4 s =
    .ok (n : ℤ) s := by
  have hlen := length_bnGetvch_le (n := (n : ℤ)) (k := 1) (by omega)
  rw [castToBigNum_ok (by omega), bnSetvch_bnGetvch]

theorem getint_small {n : ℕ} (hn : n ≤ 20) : getint (n : ℤ) = n := by
  unfold getint
  omega

/-- **`OP_CHECKMULTISIG`**, on a stack with signatures and keys that are well encoded. -/
theorem checkMultiSig_eq (rest sigs keys : List Valtype) {dummy : Valtype}
    (h : s.stack =
      bnGetvch keys.length :: (keys ++ bnGetvch sigs.length :: (sigs ++ dummy :: rest)))
    (hlen : keys.length ≤ 20) (hle : sigs.length ≤ keys.length)
    (hops : s.nOpCount + keys.length ≤ 201)
    (hdummy : hasFlag c.flags scriptVerifyNullDummy = true → dummy = [])
    (hsigEnc : ∀ sig ∈ sigs, checkSigEncoding sig c.flags = true)
    (hkeyEnc : ∀ key ∈ keys, isCompressedOrUncompressedPubKey key = true) :
    ∃ n, checkMultiSig E c false s = .ok () { s with
      stack := vchBool (greedy (fun sig key => checkSig E sig key
        (withoutSignatures sigs s.pbegincodehash) c.txTo c.nIn c.nHashType) keys sigs) :: rest
      nOpCount := s.nOpCount + keys.length, nCheckSig := n } := by
  have hkeys : keys <+: s.stack.drop 1 := by
    rw [h]
    exact ⟨_, rfl⟩
  have hsigs : sigs <+: s.stack.drop (keys.length + 2) := by
    rw [h, show keys.length + 2 = (keys.length + 1) + 1 from rfl, drop_succ_cons]
    refine ⟨dummy :: rest, ?_⟩
    simp [drop_append]
  have htotal : s.stack.length = keys.length + sigs.length + rest.length + 3 := by
    rw [h]
    simp only [length_cons, length_append]
    omega
  have hcountKeys := castToBigNum_small (s := s) hlen
  let s1 : Machine := { s with nOpCount := s.nOpCount + keys.length }
  have htopSigs : stacktop (2 + keys.length) s1 = .ok (bnGetvch sigs.length) s1 := by
    have hget : s1.stack[1 + keys.length]? = some (bnGetvch sigs.length) := by
      rw [h, show 1 + keys.length = keys.length + 1 by omega, getElem?_cons_succ]
      simp
    rw [show 2 + keys.length = (1 + keys.length) + 1 by omega, stacktop, get_bind_apply,
      elementAt, hget]
    rfl
  have hdrop := dropSignatures_eq (s := s1) s.pbegincodehash hsigs (le_refl sigs.length)
  rw [take_length] at hdrop
  obtain ⟨n, hloop⟩ := multiSigLoop_eq (E := E) (c := c) (s := s1)
    (withoutSignatures sigs s.pbegincodehash) hsigs hkeys hsigEnc hkeyEnc
  have hpop : popMany (keys.length + sigs.length + 2) { s1 with nCheckSig := n } =
      .ok () { s1 with stack := dummy :: rest, nCheckSig := n } := by
    have hlist : (bnGetvch keys.length :: (keys ++ bnGetvch sigs.length :: sigs)).length =
        keys.length + sigs.length + 2 := by
      simp only [length_cons, length_append]
      omega
    rw [← hlist]
    refine popMany_ok ?_
    rw [h]
    simp
  rw [checkMultiSig, bind_of_ok (needs_ok (by omega)), bind_of_ok (stacktop_one h),
    bind_of_ok hcountKeys, getint_small hlen, checkMultiSigKeys,
    bind_of_ok (returnIf_of_not (by simp; omega)), Int.toNat_natCast, bind_of_ok (addOps_ok hops)]
  rw [bind_of_ok (needs_ok (s := s1) (by show _ ≤ s.stack.length; omega)), bind_of_ok htopSigs,
    bind_of_ok (castToBigNum_small (by omega)), getint_small (by omega),
    bind_of_ok (returnIf_of_not (by simp; omega)), Int.toNat_natCast,
    bind_of_ok (needs_ok (s := s1) (by show _ ≤ s.stack.length; omega)), get_bind_apply]
  have hisig : 2 + keys.length + 1 = (keys.length + 2) + 1 := by omega
  have hi : keys.length + 2 + 1 + sigs.length - 1 = keys.length + sigs.length + 2 := by omega
  rw [hisig, bind_of_ok hdrop, bind_of_ok hloop, hi, bind_of_ok hpop]
  have htop : stacktop 1 { s1 with stack := dummy :: rest, nCheckSig := n } =
      .ok dummy { s1 with stack := dummy :: rest, nCheckSig := n } := stacktop_one rfl
  have hnull : (hasFlag c.flags scriptVerifyNullDummy && !dummy.isEmpty) = false := by
    cases hflag : hasFlag c.flags scriptVerifyNullDummy with
    | false => rfl
    | true =>
      rw [hdummy hflag]
      rfl
  rw [bind_of_ok (needs_ok (by simp)), bind_of_ok htop, bind_of_ok (returnIf_of_not hnull)]
  simp [popstack, pushBack, pushResult, bind_apply, s1]

/-- **`OP_CHECKMULTISIG`** with signatures that match the keys in order. -/
theorem checkMultiSig_ok (rest sigs keys : List Valtype)
    (h : s.stack = bnGetvch keys.length :: (keys ++ bnGetvch sigs.length :: (sigs ++ [] :: rest)))
    (hlen : keys.length ≤ 20) (hops : s.nOpCount + keys.length ≤ 201)
    (hmatch : List.SublistForall₂
      (fun sig key => checkSig E sig key s.pbegincodehash c.txTo c.nIn c.nHashType =
      true) sigs keys)
    (hdel : ∀ sig ∈ sigs, findAndDelete (pushData sig) s.pbegincodehash = s.pbegincodehash)
    (hsigEnc : ∀ sig ∈ sigs, checkSigEncoding sig c.flags = true)
    (hkeyEnc : ∀ key ∈ keys, isCompressedOrUncompressedPubKey key = true) :
    ∃ n, checkMultiSig E c false s = .ok () { s with
      stack := [1] :: rest, nOpCount := s.nOpCount + keys.length, nCheckSig := n } := by
  obtain ⟨n, hrun⟩ := checkMultiSig_eq (E := E) rest sigs keys h hlen (length_le hmatch)
    hops (fun _ => rfl) hsigEnc hkeyEnc
  rw [withoutSignatures_of_absent hdel, greedy_of_match hmatch] at hrun
  exact ⟨n, hrun⟩

/-! ### Standard scripts -/

theorem push_of_data (hget : getOp script = some (opcode, vch, pc)) (h : vch ≠ []) :
    opcode.toNat ≤ 0x4e := by
  by_contra hop
  exact h (data_eq_nil hget (.inr (by omega)))

section Plain

variable {stack stack' : List Valtype} {k k' n n' : ℕ} {code : CScript}

theorem runs_data (hget : getOp script = some (opcode, vch, pc)) (hop : opcode.toNat ≤ 0x4e)
    (hlen : vch.length ≤ maxScriptElementSize) (hsize : stack.length < 1000) :
    Runs E c (.plain stack k script code n) (.plain (vch :: stack) k pc code n) :=
  .single (evalStep_data hget hop rfl hlen hsize)

theorem runs_number (stack : List Valtype) (code : CScript)
    (hget : getOp script = some (opcode, vch, pc))
    (hop : SmallInteger opcode) (hsize : stack.length < 1000) :
    Runs E c (.plain stack k script code n)
      (.plain (bnGetvch (decodeOpN opcode : ℕ) :: stack) k pc code n) :=
  .single (evalStep_number hget hop rfl hsize)

theorem runs_exec (hget : getOp script = some (opcode, vch, pc)) (hop : 0x60 < opcode.toNat)
    (hdisabled : disabledOpcodes.contains opcode = false) (hops : k < 201)
    (hrun : execOpcode E c true (opcodeOf opcode) (.plain stack (k + 1) pc code n) =
      .ok () (.plain stack' k' pc code n'))
    (hsize : stack'.length ≤ 1000) :
    Runs E c (.plain stack k script code n) (.plain stack' k' pc code n') :=
  .single (evalStep_exec hget hop hdisabled rfl hops hrun hsize)

theorem evalScript_of_plain (hlen : script.length ≤ 10000)
    (h : Runs E c (.plain stack 0 script script 0) (.plain stack' k [] script n)) :
    evalScript E c stack script = (true, stack') :=
  evalScript_of_runs hlen h rfl rfl

end Plain

theorem length_hash160 (d : Valtype) : (Wire.writeBits 20 (E.hash160 d)).length = 20 :=
    Wire.length_bytesLE 20 _

/-- A key and `OP_CHECKSIG`. -/
theorem evalScript_pubKey {op : UInt8} (hparse : Parses script [(op, vchPubKey), (0xac, [])])
    (hlow : 1 ≤ vchPubKey.length) (hhigh : vchPubKey.length ≤ 120)
    (hdel : findAndDelete (pushData vchSig) script = script)
    (hacc : Accepts E c script vchSig vchPubKey) : evalScript E c [vchSig] script =
    (true, [[1]]) := by
  have hlen := hparse.length_le
  simp only [map_cons, map_nil, sum_cons, sum_nil, length_nil] at hlen
  rcases hparse with _ | ⟨hget1, _ | ⟨hget2, hrest⟩⟩
  cases hrest
  have hop := push_of_data hget1 (length_pos_iff.mp hlow)
  have hsize : vchPubKey.length ≤ maxScriptElementSize := by
    rw [maxScriptElementSize]
    omega
  refine evalScript_of_plain (k := 1) (n := 1) (by omega)
    ((runs_data hget1 hop hsize (by simp)).trans ?_)
  exact runs_exec hget2 (by decide) (by decide) (by decide)
    (execOpcode_checkSig (by rwa [← hdel] at hacc)) (by simp)

/-- `OP_DUP OP_HASH160`, a hash, and `OP_EQUALVERIFY OP_CHECKSIG`. -/
theorem evalScript_pubKeyHash {op : UInt8}
    (hparse : Parses script [(0x76, []), (0xa9, []), (op, Wire.writeBits 20 (E.hash160 vchPubKey)),
    (0x88, []), (0xac, [])])
    (hdel : findAndDelete (pushData vchSig) script = script)
      (hacc : Accepts E c script vchSig vchPubKey) :
    evalScript E c [vchPubKey, vchSig] script = (true, [[1]]) := by
  have hlen := hparse.length_le
  have hhash := length_hash160 (E := E) vchPubKey
  simp only [map_cons, map_nil, sum_cons, sum_nil, length_nil] at hlen
  rcases hparse with _ | ⟨hget1, _ | ⟨hget2, _ | ⟨hget3, _ | ⟨hget4, _ | ⟨hget5, hrest⟩⟩⟩⟩⟩
  cases hrest
  have hop := push_of_data hget3 (length_pos_iff.mp (by omega))
  refine evalScript_of_plain (k := 4) (n := 1) (by omega) ?_
  refine (runs_exec hget1 (by decide) (by decide) (by decide) execOpcode_dup (by simp)).trans ?_
  refine (runs_exec hget2 (by decide) (by decide) (by decide) execOpcode_hash160 (by simp)).trans ?_
  refine (runs_data hget3 hop (by rw [hhash]; decide) (by simp)).trans ?_
  refine (runs_exec hget4 (by decide) (by decide)
    (by decide) execOpcode_equalVerify (by simp)).trans ?_
  exact runs_exec hget5 (by decide) (by decide) (by decide)
    (execOpcode_checkSig (by rwa [← hdel] at hacc)) (by simp)

theorem evalScript_scriptHash {op : UInt8}
    (hparse : Parses script [(0xa9, []), (op, Wire.writeBits 20 (E.hash160 vch)), (0x87, [])])
    (hsize : rest.length + 2 ≤ 1000) : evalScript E c (vch :: rest) script =
    (true, [1] :: rest) := by
  have hlen := hparse.length_le
  have hhash := length_hash160 (E := E) vch
  simp only [map_cons, map_nil, sum_cons, sum_nil, length_nil] at hlen
  rcases hparse with _ | ⟨hget1, _ | ⟨hget2, _ | ⟨hget3, hrest⟩⟩⟩
  cases hrest
  have hop := push_of_data hget2 (length_pos_iff.mp (by omega))
  refine evalScript_of_plain (k := 2) (n := 0) (by omega) ?_
  refine (runs_exec hget1 (by decide) (by decide)
    (by decide) execOpcode_hash160 (by simp; omega)).trans ?_
  refine (runs_data hget2 hop (by rw [hhash]; decide) (by simp; omega)).trans ?_
  exact runs_exec hget3 (by decide) (by decide) (by decide) execOpcode_equal (by simp; omega)

/-- The data of opcodes that are not empty is pushed, one after the other. -/
theorem runs_datas (stack : List Valtype) {k n : ℕ} (code : CScript)
    {ops more : List (UInt8 × Valtype)} (hparse : Parses script (ops ++ more))
    (hops : ∀ op ∈ ops, 1 ≤ op.2.length ∧ op.2.length ≤ maxScriptElementSize)
    (hsize : stack.length + ops.length ≤ 1000) : ∃ pc, Parses pc more ∧
      Runs E c (.plain stack k script code n)
      (.plain ((ops.map Prod.snd).reverse ++ stack) k pc code n) := by
  induction ops generalizing script stack with
  | nil => exact ⟨script, hparse, .refl _⟩
  | cons op ops ih =>
    obtain ⟨opcode, d⟩ := op
    rcases hparse with _ | ⟨hget, hrest⟩
    obtain ⟨hlow, hhigh⟩ := hops _ mem_cons_self
    simp only [length_cons] at hsize
    have hop := push_of_data hget (length_pos_iff.mp hlow)
    obtain ⟨pc, hmore, hrun⟩ := ih (d :: stack) hrest (fun op hmem => hops op (.tail _ hmem))
      (by simp only [length_cons]; omega)
    refine ⟨pc, hmore, (runs_data hget hop hhigh (by omega)).trans ?_⟩
    simpa using hrun

/-- Numbers, keys and `OP_CHECKMULTISIG`, with signatures that match the keys in order. -/
theorem evalScript_multiSig {opm opn : UInt8} {vm vn : Valtype}
    (hparse : Parses script ((opm, vm) :: (ops ++ [(opn, vn), (0xae, [])])))
    (hm : SmallInteger opm) (hn : SmallInteger opn)
    (hops : ∀ op ∈ ops, 33 ≤ op.2.length ∧ op.2.length ≤ 120)
    (hdecodeM : decodeOpN opm = sigs.length) (hdecodeN : decodeOpN opn = ops.length)
    (hlen : ops.length ≤ 20)
    (hmatch : List.SublistForall₂ (fun sig key => Accepts E c script sig key) sigs
    (ops.map Prod.snd))
    (hdel : ∀ sig ∈ sigs, findAndDelete (pushData sig) script = script)
    (hkeys : ∀ op ∈ ops, isCompressedOrUncompressedPubKey op.2 = true) :
    evalScript E c (sigs.reverse ++ [[]]) script = (true, [[1]]) := by
  obtain ⟨matched, hall, hsubKeys⟩ := sublistForall₂_iff.mp hmatch
  have hacc : ∀ sig ∈ sigs, checkSigEncoding sig c.flags = true := by
    intro sig hmem
    obtain ⟨i, hi, rfl⟩ := mem_iff_getElem.mp hmem
    exact (hall.get hi (hall.length_eq ▸ hi)).sigEncoding
  have hsub : List.SublistForall₂
      (fun sig key => checkSig E sig key script c.txTo c.nIn c.nHashType = true) sigs.reverse
      (ops.map Prod.snd).reverse :=
    reverse_iff.mpr (sublistForall₂_iff.mpr
      ⟨matched, hall.imp fun _ _ h => h.signature, hsubKeys⟩)
  have hle := length_le hsub
  rw [length_reverse, length_reverse, length_map] at hle
  have hscript : script.length ≤ 10000 := by
    have hsum := sum_le_card_nsmul (ops.map fun op => op.2.length + 5) 125 (by
      intro k hk
      obtain ⟨op, hmem, rfl⟩ := mem_map.mp hk
      have := (hops op hmem).2
      omega)
    have hparsed := hparse.length_le
    obtain ⟨_, _, hgetM⟩ := hparse.getOp_of_mem (opm, vm) (by simp)
    obtain ⟨_, _, hgetN⟩ := hparse.getOp_of_mem (opn, vn) (by simp)
    obtain rfl := hm.data_eq_nil hgetM
    obtain rfl := hn.data_eq_nil hgetN
    simp only [map_cons, map_append, map_nil, sum_cons, sum_append_nat, sum_nil,
      length_nil] at hparsed
    rw [length_map] at hsum
    simp only [nsmul_eq_mul, cast_id] at hsum
    omega
  rcases hparse with _ | ⟨hgetM, hparse⟩
  have hrunM := runs_number (E := E) (c := c) (k := 0) (n := 0) (sigs.reverse ++ [[]]) script
    hgetM hm (by simp; omega)
  obtain ⟨pc, hmore, hrunKeys⟩ := runs_datas (E := E) (c := c) (k := 0) (n := 0)
    (bnGetvch (decodeOpN opm : ℕ) :: (sigs.reverse ++ [[]])) script hparse
    (fun op hmem => ⟨by have := (hops op hmem).1; omega, by
      have := (hops op hmem).2
      rw [maxScriptElementSize]
      omega⟩) (by simp; omega)
  rcases hmore with _ | ⟨hgetN, _ | ⟨hgetOp, hrest⟩⟩
  cases hrest
  have hrunN := runs_number (E := E) (c := c) (k := 0) (n := 0)
    ((ops.map Prod.snd).reverse ++ bnGetvch (decodeOpN opm : ℕ) :: (sigs.reverse ++ [[]])) script
    hgetN hn (by simp; omega)
  obtain ⟨n, hcheck⟩ := checkMultiSig_ok (E := E) (c := c)
    [] sigs.reverse (ops.map Prod.snd).reverse (s :=
    .plain (bnGetvch (decodeOpN opn : ℕ) :: ((ops.map Prod.snd).reverse ++
      bnGetvch (decodeOpN opm : ℕ) :: (sigs.reverse ++ [[]]))) 1 [] script 0)
    (by simp [Machine.plain, hdecodeM, hdecodeN])
    (by simpa using hlen) (by simp [Machine.plain]; omega) hsub
    (fun sig hmem => hdel sig (mem_reverse.mp hmem))
      (fun sig hmem => hacc sig (mem_reverse.mp hmem))
    (fun key hmem => by
      obtain ⟨op, hop, rfl⟩ := mem_map.mp (mem_reverse.mp hmem)
      exact hkeys op hop)
  have hcheck' : execOpcode E c true (opcodeOf 0xae) (.plain (bnGetvch (decodeOpN opn : ℕ) ::
      ((ops.map Prod.snd).reverse ++ bnGetvch (decodeOpN opm : ℕ) :: (sigs.reverse ++ [[]]))) 1
      [] script 0) = .ok () (.plain [[1]] (1 + ops.length) [] script n) :=
    hcheck.trans (by simp [Machine.plain])
  refine evalScript_of_plain (k := 1 + ops.length)
    (n := n) hscript ((hrunM.trans hrunKeys).trans (hrunN.trans ?_))
  exact runs_exec hgetOp (by decide) (by decide) (by decide) hcheck' (by simp)

end Espers
