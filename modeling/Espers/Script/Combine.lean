import Espers.Lib.Collect
import Espers.Script.MultiSig

/-!
# Combining partial signatures

`CombineSignatures` runs two scripts of signatures and makes one of what they leave.  For a script
that asks for `m` of `n` signatures it collects the signatures of both, gives every key the first of
them that `CheckSig` accepts, and fills up with `OP_0`.

* `combineSignatures_eq` : the combined script, for a multisig script itself or behind its hash.
* `combineSignatures_covered` : **no signature is lost**: the first `m` keys that are covered keep a
  signature each, whichever script comes first, and `m` of them pass if their encodings do.
* `combineSignatures_loses` : what is lost without the limits of `EvalScript` and the encodings.

The functions have the names of the source.  Stacks are listed from their top.
-/

namespace Espers

open List Nat Prod

/-! ### `CombineSignatures` -/

section Combine

variable (E : ScriptEnv) (txTo : CTransaction) (nIn : ℕ)

/-- The set `allsigs`, in the order of its elements. -/
def allsigs (sigs1 sigs2 : List Valtype) : List Valtype :=
  Collect.insertAll (· ≤ ·) (sigs2.reverse.filter fun v => !v.isEmpty)
    (Collect.insertAll (· ≤ ·) (sigs1.reverse.filter fun v => !v.isEmpty) [])

/-- The map `sigs` from the public keys to their signatures. -/
def matchSigs (scriptPubKey : CScript) (pubkeys allsigs : List Valtype) :
    Valtype → Option Valtype :=
  Collect.assignAll (fun sig pubkey => checkSig E sig pubkey scriptPubKey txTo nIn 0) pubkeys
    allsigs

/-- The loop over the public keys: the number of signatures, and the merged script. -/
def mergeLoop (sigs : Valtype → Option Valtype) (nSigsRequired : ℕ) :
    List Valtype → ℕ → CScript → ℕ × CScript
  | [], nSigsHave, result => (nSigsHave, result)
  | pubkey :: pubkeys, nSigsHave, result =>
    if nSigsHave < nSigsRequired then
      match sigs pubkey with
      | none => mergeLoop sigs nSigsRequired pubkeys nSigsHave result
      | some sig => mergeLoop sigs nSigsRequired pubkeys (nSigsHave + 1) (result ++ pushData sig)
    else (nSigsHave, result)

/-- `CombineMultisig`; `Solver` notes two numbers at least. -/
def combineMultisig (scriptPubKey : CScript) (vSolutions sigs1 sigs2 : List Valtype) : CScript :=
  let nSigsRequired := ((vSolutions.headD []).getD 0 0).toNat
  let pubkeys := (vSolutions.drop 1).dropLast
  let sigs := matchSigs E txTo nIn scriptPubKey pubkeys (allsigs sigs1 sigs2)
  -- `OP_0`, a workaround for one element that is popped too many
  let (nSigsHave, result) := mergeLoop sigs nSigsRequired pubkeys 0 [0x00]
  -- what is missing is filled with `OP_0`
  result ++ replicate (nSigsRequired - nSigsHave) 0x00

/-- `CombineSignatures` of two stacks. -/
def combineStacks : CScript → TxnOutType → List Valtype → List Valtype → List Valtype → CScript
  | scriptPubKey, type, vSolutions, sigs1, sigs2 =>
    match type with
    | .nonStandard | .nullData =>
      -- nothing is known about this: the bigger one is taken
      if sigs1.length ≥ sigs2.length then pushAll sigs1.reverse else pushAll sigs2.reverse
    | .pubKey | .pubKeyHash =>
      -- signatures are bigger than placeholders or empty scripts
      if (sigs1.getLastD []).isEmpty then pushAll sigs2.reverse else pushAll sigs1.reverse
    | .scriptHash =>
      match sigs1 with
      | [] => pushAll sigs2.reverse
      | spk :: rest1 =>
        if spk.isEmpty then pushAll sigs2.reverse
        else if (sigs2.headD []).isEmpty then pushAll sigs1.reverse
        else
          -- recur to combine
          let (_, type2, vSolutions2) := solver spk
          combineStacks spk type2 vSolutions2 rest1 sigs2.tail ++ pushData spk
    | .multiSig => combineMultisig E txTo nIn scriptPubKey vSolutions sigs1 sigs2

/-- `CombineSignatures` of two scripts.  They are run for a transaction without inputs, which is
made at some time. -/
def combineSignatures (nTime : ℕ) (scriptPubKey scriptSig1 scriptSig2 : CScript) : CScript :=
  let (_, txType, vSolutions) := solver scriptPubKey
  let (_, stack1) := evalScript E ⟨⟨1, nTime, [], [], 0⟩, 0, 0, 0⟩ [] scriptSig1
  let (_, stack2) := evalScript E ⟨⟨1, nTime, [], [], 0⟩, 0, 0, 0⟩ [] scriptSig2
  combineStacks E txTo nIn scriptPubKey txType vSolutions stack1 stack2

end Combine

variable {E : ScriptEnv} {txTo : CTransaction} {nIn nTime m : ℕ} {script scriptPubKey : CScript}
  {v : Valtype} {sigs1 sigs2 pubkeys args tail : List Valtype}

theorem isSet_allsigs (sigs1 sigs2 : List Valtype) : Collect.IsSet (· ≤ ·) (allsigs sigs1 sigs2) :=
  (Collect.IsSet.nil.insertAll _).insertAll _

theorem mem_allsigs : v ∈ allsigs sigs1 sigs2 ↔ (v ∈ sigs1 ∨ v ∈ sigs2) ∧ v ≠ [] := by
  simp only [allsigs, Collect.mem_insertAll, mem_filter, mem_reverse,
    Bool.not_eq_true', isEmpty_eq_false_iff]
  tauto

theorem allsigs_comm (sigs1 sigs2 : List Valtype) : allsigs sigs1 sigs2 = allsigs sigs2 sigs1 := by
  refine (isSet_allsigs sigs1 sigs2).ext (isSet_allsigs sigs2 sigs1) fun v => ?_
  rw [mem_allsigs, mem_allsigs, or_comm]

theorem ne_nil_of_checkSig {vchSig vchPubKey : Valtype} {nHashType : ℤ}
    (h : checkSig E vchSig vchPubKey script txTo nIn nHashType = true) : vchSig ≠ [] := by
  rintro rfl
  unfold checkSig at h
  simp at h

/-- Some signature of a list is valid for the key. -/
def covered (E : ScriptEnv) (txTo : CTransaction) (nIn : ℕ) (scriptCode : CScript)
    (sigs : List Valtype) (pubkey : Valtype) : Bool :=
  sigs.any fun sig => checkSig E sig pubkey scriptCode txTo nIn 0

/-- Every signature is valid for one of the keys at most. -/
def OneKeyEach (E : ScriptEnv) (txTo : CTransaction) (nIn : ℕ) (scriptCode : CScript)
    (sigs pubkeys : List Valtype) : Prop :=
  ∀ sig ∈ sigs, ∀ key ∈ pubkeys, ∀ key' ∈ pubkeys, checkSig E sig key scriptCode txTo nIn 0 = true →
    checkSig E sig key' scriptCode txTo nIn 0 = true → key = key'

/-- **Every key gets a signature that is valid for it, if there is one.** -/
theorem matchSigs_spec (hone : OneKeyEach E txTo nIn script (sigs1 ++ sigs2) pubkeys)
    {key : Valtype} (hkey : key ∈ pubkeys) :
    ((matchSigs E txTo nIn script pubkeys (allsigs sigs1 sigs2) key).isSome =
      covered E txTo nIn script (sigs1 ++ sigs2) key) ∧
    ∀ sig, matchSigs E txTo nIn script pubkeys (allsigs sigs1 sigs2) key = some sig →
      sig ∈ sigs1 ++ sigs2 ∧ checkSig E sig key script txTo nIn 0 = true := by
  let valid : Valtype → Bool := fun sig => checkSig E sig key script txTo nIn 0
  have hmem : ∀ sig ∈ allsigs sigs1 sigs2, sig ∈ sigs1 ++ sigs2 := fun sig h =>
    mem_append.mpr (mem_allsigs.mp h).1
  have hfind : matchSigs E txTo nIn script pubkeys (allsigs sigs1 sigs2) key =
      (allsigs sigs1 sigs2).find? valid :=
    Collect.assignAll_eq_find? (fun sig h => hone sig (hmem sig h)) hkey
  rw [hfind]
  refine ⟨?_, fun sig h => ⟨hmem sig (mem_of_find?_eq_some h), find?_some (p := valid) h⟩⟩
  rw [Bool.eq_iff_iff, find?_isSome, covered, any_eq_true]
  constructor
  · rintro ⟨sig, h, hvalid⟩
    exact ⟨sig, hmem sig h, hvalid⟩
  · rintro ⟨sig, h, hvalid⟩
    exact ⟨sig, mem_allsigs.mpr ⟨mem_append.mp h, ne_nil_of_checkSig hvalid⟩, hvalid⟩

/-! ### The merged script -/

/-- The loop takes the signatures of the keys in order, up to the number required. -/
theorem mergeLoop_eq (sigs : Valtype → Option Valtype) (nSigsRequired : ℕ) (pubkeys : List Valtype)
    (nSigsHave : ℕ) (result : CScript) :
    mergeLoop sigs nSigsRequired pubkeys nSigsHave result =
      (nSigsHave + ((pubkeys.filterMap sigs).take (nSigsRequired - nSigsHave)).length,
        result ++ pushAll ((pubkeys.filterMap sigs).take (nSigsRequired - nSigsHave))) := by
  induction pubkeys generalizing nSigsHave result with
  | nil => simp [mergeLoop, pushAll]
  | cons pubkey pubkeys ih =>
    rw [mergeLoop]
    by_cases hlt : nSigsHave < nSigsRequired
    · rw [if_pos hlt]
      cases hsig : sigs pubkey with
      | none => rw [filterMap_cons_none hsig, ih]
      | some sig =>
        obtain ⟨k, hk⟩ : ∃ k, nSigsRequired - nSigsHave = k + 1 :=
          ⟨nSigsRequired - nSigsHave - 1, by omega⟩
        rw [filterMap_cons_some hsig, hk, take_succ_cons]
        simp only
        rw [ih, show nSigsRequired - (nSigsHave + 1) = k by omega, length_cons, pushAll_cons,
          append_assoc]
        congr 1
        omega
    · rw [if_neg hlt, show nSigsRequired - nSigsHave = 0 by omega]
      simp [pushAll]

/-- The signatures that are carried: those of the first `m` keys that have one. -/
def carried (E : ScriptEnv) (txTo : CTransaction) (nIn : ℕ) (scriptCode : CScript) (m : ℕ)
    (pubkeys sigs1 sigs2 : List Valtype) : List Valtype :=
  (pubkeys.filterMap (matchSigs E txTo nIn scriptCode pubkeys (allsigs sigs1 sigs2))).take m

theorem pushAll_replicate_nil (n : ℕ) : pushAll (replicate n []) = replicate n 0x00 := by
  induction n with
  | zero => rfl
  | succ n ih =>
    rw [replicate_succ, replicate_succ, ← ih]
    rfl

/-- **The merged script**: a dummy, the signatures that are carried, and placeholders. -/
theorem combineMultisig_eq (hm : m ≤ 16) (last : Valtype) :
    combineMultisig E txTo nIn script ([UInt8.ofNat m] :: (pubkeys ++ [last])) sigs1 sigs2 =
      pushAll ([] :: (carried E txTo nIn script m pubkeys sigs1 sigs2 ++ replicate
        (m - (carried E txTo nIn script m pubkeys sigs1 sigs2).length) [])) := by
  have hnat : ((([UInt8.ofNat m] :: (pubkeys ++ [last])).headD []).getD 0 0).toNat = m := by
    rw [headD_cons, getD_cons_zero, UInt8.toNat_ofNat']
    omega
  have hkeys : (([UInt8.ofNat m] :: (pubkeys ++ [last])).drop 1).dropLast = pubkeys := by
    rw [drop_one, tail_cons, dropLast_concat]
  rw [combineMultisig, hnat, hkeys, mergeLoop_eq]
  simp only [zero_add]
  rw [pushAll_cons, pushAll_append, pushAll_replicate_nil, append_assoc]
  rfl

theorem forall₂_filterMap {α β : Type} (f : β → Option α) (l : List β) :
    List.Forall₂ (fun a b => b ∈ l ∧ f b = some a) (l.filterMap f)
      (l.filter fun b => (f b).isSome) := by
  induction l with
  | nil => exact .nil
  | cons b l ih =>
    have hrest := ih.imp fun a b' h => (⟨mem_cons_of_mem b h.1, h.2⟩ : b' ∈ b :: l ∧ f b' = some a)
    cases hb : f b with
    | none =>
      rw [filterMap_cons_none hb, filter_cons_of_neg (by simp [hb])]
      exact hrest
    | some a =>
      rw [filterMap_cons_some hb, filter_cons_of_pos (by simp [hb])]
      exact .cons ⟨.head _, hb⟩ hrest

theorem carried_forall₂ (hone : OneKeyEach E txTo nIn script (sigs1 ++ sigs2) pubkeys) (m : ℕ) :
    List.Forall₂
      (fun sig key => sig ∈ sigs1 ++ sigs2 ∧ checkSig E sig key script txTo nIn 0 = true)
      (carried E txTo nIn script m pubkeys sigs1 sigs2)
      ((pubkeys.filter (covered E txTo nIn script (sigs1 ++ sigs2))).take m) := by
  have hfilter : (pubkeys.filter fun key =>
      (matchSigs E txTo nIn script pubkeys (allsigs sigs1 sigs2) key).isSome) =
        pubkeys.filter (covered E txTo nIn script (sigs1 ++ sigs2)) :=
    filter_congr fun key hkey => (matchSigs_spec hone hkey).1
  rw [← hfilter]
  exact forall₂_take m ((forall₂_filterMap _ pubkeys).imp fun sig key h =>
    (matchSigs_spec hone h.1).2 sig h.2)

theorem carried_comm (m : ℕ) (pubkeys sigs1 sigs2 : List Valtype) :
    carried E txTo nIn script m pubkeys sigs2 sigs1 =
      carried E txTo nIn script m pubkeys sigs1 sigs2 := by
  rw [carried, carried, allsigs_comm]

theorem covered_reverse (args1 args2 : List Valtype) :
    covered E txTo nIn script (args1.reverse ++ args2.reverse) =
      covered E txTo nIn script (args1 ++ args2) := by
  funext key
  rw [covered, covered, any_append, any_append, any_reverse, any_reverse]

theorem carried_reverse_forall₂ {args1 args2 : List Valtype}
    (hone : OneKeyEach E txTo nIn script (args1 ++ args2) pubkeys) (m : ℕ) :
    List.Forall₂
      (fun sig key => sig ∈ args1 ++ args2 ∧ checkSig E sig key script txTo nIn 0 = true)
      (carried E txTo nIn script m pubkeys args1.reverse args2.reverse)
      ((pubkeys.filter (covered E txTo nIn script (args1 ++ args2))).take m) := by
  have hmem : ∀ sig, sig ∈ args1.reverse ++ args2.reverse ↔ sig ∈ args1 ++ args2 := fun sig => by
    simp only [mem_append, mem_reverse]
  have hall := carried_forall₂ (fun sig h => hone sig ((hmem sig).mp h)) m
  rw [covered_reverse] at hall
  exact hall.imp fun sig key h => ⟨(hmem sig).mp h.1, h.2⟩

/-! ### Partial scripts -/

/-- The output asks for signatures of the script: it is the script itself, and nothing is pushed
behind the signatures, or it pays to the hash of the script, which is pushed then. -/
inductive PaidTo (E : ScriptEnv) (script : CScript) : CScript → List Valtype → Prop
  | bare : PaidTo E script script []
  | scriptHash {scriptPubKey : CScript} (hp2sh : isPayToScriptHash scriptPubKey = true)
      (hhash : Wire.writeBits 20 (E.hash160 script) = (scriptPubKey.drop 2).take 20) :
      PaidTo E script scriptPubKey [script]

/-- A script that pushes these elements, each in any form, and that `EvalScript` runs to its end. -/
structure Pushes (E : ScriptEnv) (nTime : ℕ) (scriptSig : CScript) (args : List Valtype) :
    Prop where
  parses : ∃ ops : List (UInt8 × Valtype), Parses scriptSig ops ∧
    (∀ op ∈ ops, op.1.toNat ≤ 0x4e) ∧ ops.map snd = args
  runs : (evalScript E ⟨⟨1, nTime, [], [], 0⟩, 0, 0, 0⟩ [] scriptSig).1 = true

variable {scriptSig scriptSig1 scriptSig2 : CScript} {args1 args2 : List Valtype}
  {keys : List (UInt8 × Valtype)}

theorem Pushes.stack (h : Pushes E nTime scriptSig args) :
    (evalScript E ⟨⟨1, nTime, [], [], 0⟩, 0, 0, 0⟩ [] scriptSig).2 = args.reverse := by
  obtain ⟨ops, hparse, hops, rfl⟩ := h.parses
  exact (evalScript_pushes hparse hops h.runs).1

theorem Pushes.size (h : Pushes E nTime scriptSig args) {d : Valtype} (hd : d ∈ args) :
    d.length ≤ maxScriptElementSize := by
  obtain ⟨ops, hparse, hops, rfl⟩ := h.parses
  obtain ⟨op, hmem, rfl⟩ := mem_map.mp hd
  exact (evalScript_pushes hparse hops h.runs).2 op hmem

theorem IsMultiSig.solver (hscript : IsMultiSig script m keys) : Espers.solver script =
    (true, .multiSig, [UInt8.ofNat m] :: (keys.map snd ++ [[UInt8.ofNat keys.length]])) :=
  solver_multiSig_iff.mpr ⟨m, keys, hscript, rfl⟩

theorem IsMultiSig.ne_nil (hscript : IsMultiSig script m keys) : script ≠ [] := by
  rintro rfl
  obtain _ | ⟨hget, _⟩ := hscript.parses
  cases hget

theorem combineStacks_multiSig (vSolutions sigs1 sigs2 : List Valtype) :
    combineStacks E txTo nIn script .multiSig vSolutions sigs1 sigs2 =
      combineMultisig E txTo nIn script vSolutions sigs1 sigs2 := by
  cases sigs1 <;> rfl

theorem combineStacks_scriptHash {spk spk' : Valtype} (hne : spk ≠ []) (hne' : spk' ≠ [])
    (vSolutions sigs1 sigs2 : List Valtype) :
    combineStacks E txTo nIn scriptPubKey .scriptHash vSolutions (spk :: sigs1) (spk' :: sigs2) =
      combineStacks E txTo nIn spk (solver spk).2.1 (solver spk).2.2 sigs1 sigs2 ++
        pushData spk := by
  rw [← isEmpty_eq_false_iff] at hne hne'
  rw [combineStacks, hne, headD_cons, hne']
  rfl

/-- Redeem scripts are popped, and pushed again behind what is merged. -/
theorem combineStacks_eq (hscript : IsMultiSig script m keys)
    (hpaid : PaidTo E script scriptPubKey tail) :
    combineStacks E txTo nIn scriptPubKey (solver scriptPubKey).2.1 (solver scriptPubKey).2.2
      (tail.reverse ++ sigs1) (tail.reverse ++ sigs2) = combineMultisig E txTo nIn script
          ([UInt8.ofNat m] :: (keys.map snd ++ [[UInt8.ofNat keys.length]])) sigs1 sigs2 ++
        pushAll tail := by
  have hsolver := hscript.solver
  cases hpaid with
  | bare =>
    rw [hsolver, combineStacks_multiSig, show pushAll [] = [] from rfl, append_nil]
    rfl
  | scriptHash hp2sh hhash =>
    have htype : (solver scriptPubKey).2.1 = .scriptHash := by rw [solver, if_pos hp2sh]
    rw [htype, reverse_singleton, singleton_append, singleton_append,
      combineStacks_scriptHash hscript.ne_nil hscript.ne_nil, hsolver, combineStacks_multiSig,
      pushAll_singleton]

/-- **The combined script**, for a multisig script itself or behind its hash. -/
theorem combineSignatures_eq (txTo : CTransaction) (nIn : ℕ) (hscript : IsMultiSig script m keys)
    (hpaid : PaidTo E script scriptPubKey tail) (h1 : Pushes E nTime scriptSig1 (args1 ++ tail))
    (h2 : Pushes E nTime scriptSig2 (args2 ++ tail)) {sigs : List Valtype}
    (hsigs : carried E txTo nIn script m (keys.map snd) args1.reverse args2.reverse = sigs) :
    combineSignatures E txTo nIn nTime scriptPubKey scriptSig1 scriptSig2 =
      pushAll ([] :: (sigs ++ replicate (m - sigs.length) [] ++ tail)) := by
  have hstacks : combineSignatures E txTo nIn nTime scriptPubKey scriptSig1 scriptSig2 =
      combineStacks E txTo nIn scriptPubKey (solver scriptPubKey).2.1 (solver scriptPubKey).2.2
        (evalScript E ⟨⟨1, nTime, [], [], 0⟩, 0, 0, 0⟩ [] scriptSig1).2
        (evalScript E ⟨⟨1, nTime, [], [], 0⟩, 0, 0, 0⟩ [] scriptSig2).2 := rfl
  rw [hstacks, h1.stack, h2.stack, reverse_append, reverse_append,
    combineStacks_eq hscript hpaid, combineMultisig_eq (hscript.le.trans hscript.sixteen), hsigs,
    ← pushAll_append, cons_append]

/-! ### Passing `OP_CHECKMULTISIG` -/

theorem isLowDER_of_checkSigEncoding {flags : ℕ} (h : checkSigEncoding v flags = true)
    (hne : v ≠ []) : isLowDERSignature v = true := by
  unfold checkSigEncoding at h
  have hempty : v.isEmpty = false := by simpa using hne
  rw [hempty, Bool.and_false] at h
  simp only [Bool.false_eq_true, if_false] at h
  by_contra hlow
  rw [if_pos (by simpa using hlow)] at h
  cases h

/-- Signatures that are accepted in the order of the keys satisfy the output. -/
theorem verifies_multiSig {c : EvalContext} {sigs : List Valtype}
    (hscript : IsMultiSig script m keys) (hpaid : PaidTo E script scriptPubKey tail)
    (htail : ∀ d ∈ tail, d.length ≤ maxScriptElementSize) (hcount : sigs.length = m)
    (hmatch : List.SublistForall₂ (Accepts E c script) sigs (keys.map snd))
    (hkeys : ∀ key ∈ keys.map snd, isCompressedOrUncompressedPubKey key = true) :
    verifies E c (pushAll ([] :: (sigs ++ tail))) scriptPubKey = true := by
  have hm := hscript.le.trans hscript.sixteen
  have hsigs : ∀ sig ∈ sigs, isLowDERSignature sig = true := by
    intro sig hmem
    obtain ⟨l, hall, -⟩ := sublistForall₂_iff.mp hmatch
    obtain ⟨i, hi, rfl⟩ := mem_iff_getElem.mp hmem
    have haccepts := hall.get hi (hall.length_eq ▸ hi)
    exact isLowDER_of_checkSigEncoding haccepts.sigEncoding (ne_nil_of_checkSig haccepts.signature)
  have heval := evalScript_multiSig_of_isLowDER hscript.parses
    (smallInteger_opOfNumber hscript.one hm)
    (smallInteger_opOfNumber (hscript.one.trans hscript.le) hscript.sixteen)
    (fun key hmem => ⟨(hscript.pushes key hmem).low, (hscript.pushes key hmem).high⟩)
    ((decodeOpN_opOfNumber hscript.one hm).trans hcount.symm)
    (decodeOpN_opOfNumber (hscript.one.trans hscript.le) hscript.sixteen) hmatch hsigs
    fun key hmem => hkeys key.2 (mem_map_of_mem hmem)
  have hlength : ([] :: sigs).length ≤ 17 := by
    rw [length_cons]
    omega
  have hsize : ∀ d ∈ [] :: sigs, d.length ≤ 73 := by
    rintro d (_ | ⟨_, hmem⟩)
    · exact zero_le _
    · exact (length_of_isLowDER (hsigs d hmem)).2
  rw [← reverse_cons] at heval
  cases hpaid with
  | bare =>
    rw [append_nil]
    exact verifies_pushAll hlength hsize heval hscript.form.not_payToScriptHash
  | scriptHash hp2sh hhash =>
    exact verifies_pushAll_scriptHash hlength hsize heval hp2sh hhash (htail script (.head _))

theorem accepts_of_valid {flags : ℕ} {sigs pubkeys' : List Valtype}
    (hall : List.Forall₂
      (fun sig key => sig ∈ args ∧ checkSig E sig key script txTo nIn 0 = true) sigs pubkeys')
    (hsub : pubkeys'.Sublist pubkeys)
    (hkeys : ∀ key ∈ pubkeys, isCompressedOrUncompressedPubKey key = true)
    (henc : ∀ sig ∈ args, ∀ key ∈ pubkeys, checkSig E sig key script txTo nIn 0 = true →
      checkSigEncoding sig flags = true) :
    List.SublistForall₂ (Accepts E ⟨txTo, nIn, flags, 0⟩ script) sigs pubkeys := by
  refine sublistForall₂_iff.mpr ⟨pubkeys', ?_, hsub⟩
  rw [forall₂_iff_get] at hall ⊢
  refine ⟨hall.1, fun i hi hi' => ?_⟩
  obtain ⟨hsig, hvalid⟩ := hall.2 i hi hi'
  have hkey := hsub.subset (get_mem _ ⟨i, hi'⟩)
  exact ⟨henc _ hsig _ hkey hvalid, hkeys _ hkey, hvalid⟩

/-- **No signature is lost**: of the keys that signatures of either script are valid for, the first
`m` keep a signature each, in their order, behind the dummy and before placeholders; the order of
the scripts does not matter; and `m` of them satisfy the output, when all encodings are those that
`OP_CHECKMULTISIG` asks for. -/
theorem combineSignatures_covered (txTo : CTransaction) (nIn flags : ℕ)
    (hscript : IsMultiSig script m keys) (hpaid : PaidTo E script scriptPubKey tail)
    (h1 : Pushes E nTime scriptSig1 (args1 ++ tail))
    (h2 : Pushes E nTime scriptSig2 (args2 ++ tail))
    (hone : OneKeyEach E txTo nIn script (args1 ++ args2) (keys.map snd)) :
    ∃ sigs, combineSignatures E txTo nIn nTime scriptPubKey scriptSig1 scriptSig2 =
        pushAll ([] :: (sigs ++ replicate (m - sigs.length) [] ++ tail)) ∧
      sigs.length =
        min m ((keys.map snd).countP (covered E txTo nIn script (args1 ++ args2))) ∧
      List.Forall₂
        (fun sig key => sig ∈ args1 ++ args2 ∧ checkSig E sig key script txTo nIn 0 = true) sigs
        (((keys.map snd).filter (covered E txTo nIn script (args1 ++ args2))).take m) ∧
      combineSignatures E txTo nIn nTime scriptPubKey scriptSig2 scriptSig1 =
        combineSignatures E txTo nIn nTime scriptPubKey scriptSig1 scriptSig2 ∧
      (m ≤ (keys.map snd).countP (covered E txTo nIn script (args1 ++ args2)) →
        (∀ key ∈ keys.map snd, isCompressedOrUncompressedPubKey key = true) →
        (∀ sig ∈ args1 ++ args2, ∀ key ∈ keys.map snd,
          checkSig E sig key script txTo nIn 0 = true → checkSigEncoding sig flags = true) →
        verifies E ⟨txTo, nIn, flags, 0⟩
          (combineSignatures E txTo nIn nTime scriptPubKey scriptSig1 scriptSig2) scriptPubKey =
            true) := by
  have hcombine := combineSignatures_eq txTo nIn hscript hpaid h1 h2 rfl
  have hswap := combineSignatures_eq txTo nIn hscript hpaid h2 h1
    (carried_comm m _ _ _)
  have hall := carried_reverse_forall₂ hone m
  generalize carried E txTo nIn script m (keys.map snd) args1.reverse args2.reverse = sigs
    at hall hcombine hswap
  have hlength : sigs.length =
      min m ((keys.map snd).countP (covered E txTo nIn script (args1 ++ args2))) := by
    rw [hall.length_eq, length_take, countP_eq_length_filter]
  refine ⟨sigs, hcombine, hlength, hall, by rw [hswap, hcombine], fun hle hkeys henc => ?_⟩
  have hcount : sigs.length = m := by rw [hlength, min_eq_left hle]
  have hmatch := accepts_of_valid hall ((take_sublist m _).trans filter_sublist) hkeys
    henc
  have htail : ∀ d ∈ tail, d.length ≤ maxScriptElementSize := fun d hd =>
    h1.size (mem_append_right _ hd)
  have hverify := verifies_multiSig hscript hpaid htail hcount hmatch hkeys
  rwa [hcombine, hcount, Nat.sub_self, replicate_zero, append_nil]

/-! ### Two keys, and what is lost with one -/

namespace TwoKeys

/-- The signature of the second key. -/
def signature2 : Valtype := [0x30, 0x44, 0x02, 0x20] ++ replicate 32 2 ++ [0x02, 0x20] ++
    replicate 32 2

def env : ScriptEnv := { OneKey.env.toScriptEnv with
  verify := fun pubkey _ vchSig =>
    if pubkey = OneKey.pubKey true then vchSig == OneKey.signature else vchSig == signature2 }

/-- Two of two signatures. -/
def twoOfTwo : CScript :=
  0x52 :: (pushData (OneKey.pubKey true) ++ pushData (OneKey.pubKey false) ++ [0x52, 0xae])

theorem isMultiSig :
    IsMultiSig twoOfTwo 2 [(33, OneKey.pubKey true), (65, OneKey.pubKey false)] where
  parses := .cons rfl (.cons rfl (.cons rfl (.cons rfl (.cons rfl .nil))))
  pushes key hkey := by
    simp only [mem_cons, not_mem_nil, or_false] at hkey
    rcases hkey with rfl | rfl <;> exact ⟨by decide, by decide, by decide⟩
  one := by decide
  le := by decide
  sixteen := by decide

/-- The two partial scripts: the second key has signed the first of them. -/
def partialSig1 : CScript := pushAll [[], signature2 ++ [1]]
def partialSig2 : CScript := pushAll [[], OneKey.signed]

theorem pushes1 : Pushes env 0 partialSig1 ([[], signature2 ++ [1]] ++ []) :=
  ⟨⟨[(0, []), (71, signature2 ++ [1])], .cons rfl (.cons rfl .nil), by decide, rfl⟩,
    by decide +kernel⟩

theorem pushes2 : Pushes env 0 partialSig2 ([[], OneKey.signed] ++ []) :=
  ⟨⟨[(0, []), (71, OneKey.signed)], .cons rfl (.cons rfl .nil), by decide, rfl⟩, by decide +kernel⟩

theorem oneKeyEach : OneKeyEach env OneKey.payment 0 twoOfTwo
    ([[], signature2 ++ [1]] ++ [[], OneKey.signed])
    [OneKey.pubKey true, OneKey.pubKey false] := by
  unfold OneKeyEach
  decide +kernel

end TwoKeys

/-- Both signatures are kept, and they pass. -/
theorem combineSignatures_covered_twoKeys :
    ∃ sigs, combineSignatures TwoKeys.env OneKey.payment 0 0 TwoKeys.twoOfTwo TwoKeys.partialSig1
        TwoKeys.partialSig2 = pushAll ([] :: (sigs ++ replicate (2 - sigs.length) [] ++ [])) ∧
      sigs.length = 2 ∧ verifies TwoKeys.env ⟨OneKey.payment, 0, standardScriptVerifyFlags, 0⟩
        (combineSignatures TwoKeys.env OneKey.payment 0 0 TwoKeys.twoOfTwo TwoKeys.partialSig1
        TwoKeys.partialSig2) TwoKeys.twoOfTwo = true := by
  obtain ⟨sigs, hcombine, hlength, -, -, hverify⟩ := combineSignatures_covered OneKey.payment 0
    standardScriptVerifyFlags TwoKeys.isMultiSig .bare TwoKeys.pushes1 TwoKeys.pushes2
    TwoKeys.oneKeyEach
  exact ⟨sigs, hcombine, hlength.trans (by decide +kernel),
    hverify (by decide +kernel) (by decide) (by decide +kernel)⟩

namespace OneKey

/-- One of one signatures. -/
def oneOfOne (key : Valtype) : CScript := 0x51 :: (pushData key ++ [0x51, 0xae])

/-- A key in the third form, that of `CPubKey` only. -/
def hybridKey : Valtype := 6 :: replicate 64 1

/-- `Verify` accepts something shorter, too. -/
def looseEnv : ScriptEnv := { env.toScriptEnv with
  verify := fun _ _ vchSig => vchSig == signature || vchSig == [0] }

/-- It comes before the signature in the order of the set. -/
def loose : Valtype := [0, 1]

/-- A signature behind more placeholders than a script has bytes. -/
def tooLong : CScript := replicate 10000 0x00 ++ pushData signed

theorem isMultiSig_oneOfOne : IsMultiSig (oneOfOne (pubKey true)) 1 [(33, pubKey true)] ∧
    IsMultiSig (oneOfOne hybridKey) 1 [(65, hybridKey)] := by
  refine ⟨⟨.cons rfl (.cons rfl (.cons rfl (.cons rfl .nil))), fun key hkey => ?_, by decide,
    by decide, by decide⟩, ⟨.cons rfl (.cons rfl (.cons rfl (.cons rfl .nil))), fun key hkey => ?_,
    by decide, by decide, by decide⟩⟩
  all_goals
    obtain rfl := mem_singleton.mp hkey
    exact ⟨by decide, by decide, by decide⟩

theorem oneKeyEach (E : ScriptEnv) (txTo : CTransaction) (nIn : ℕ) (scriptCode : CScript)
    (sigs : List Valtype) (key : Valtype) : OneKeyEach E txTo nIn scriptCode sigs [key] := by
  intro sig _ key1 h1 key2 h2 _ _
  rw [mem_singleton.mp h1, mem_singleton.mp h2]

theorem parses_placeholders {ops : List (UInt8 × Valtype)} (h : Parses script ops) (n : ℕ) :
    Parses (replicate n 0x00 ++ script) (replicate n (0, []) ++ ops) := by
  induction n with
  | zero => exact h
  | succ n ih =>
    refine .cons ?_ ih
    rfl

end OneKey

section Loses

open OneKey

/-- A signature that `CheckSig` accepts in another encoding takes the place of a good one; a key in
the third form is given signatures that `OP_CHECKMULTISIG` refuses; and of a script that is too long
for `EvalScript` nothing is collected. -/
theorem combineSignatures_loses : (IsMultiSig (oneOfOne (pubKey true)) 1 [(33, pubKey true)] ∧
      Pushes looseEnv 0 (pushAll [[], loose]) [[], loose] ∧
      Pushes looseEnv 0 (pushAll [[], signed]) [[], signed] ∧
      OneKeyEach looseEnv payment 0 (oneOfOne (pubKey true)) [[], loose, [], signed]
        [pubKey true] ∧
      covered looseEnv payment 0 (oneOfOne (pubKey true)) [[], loose, [], signed] (pubKey true) =
        true ∧
      verifies looseEnv ⟨payment, 0, 0, 0⟩ (pushAll [[], signed]) (oneOfOne (pubKey true)) = true ∧
      verifies looseEnv ⟨payment, 0, 0, 0⟩ (combineSignatures looseEnv payment 0 0
        (oneOfOne (pubKey true)) (pushAll [[], loose]) (pushAll [[], signed]))
        (oneOfOne (pubKey true)) = false) ∧
    (IsMultiSig (oneOfOne hybridKey) 1 [(65, hybridKey)] ∧
      Pushes looseEnv 0 (pushAll [[], signed]) [[], signed] ∧
      OneKeyEach looseEnv payment 0 (oneOfOne hybridKey) [[], signed, [], signed] [hybridKey] ∧
      covered looseEnv payment 0 (oneOfOne hybridKey) [[], signed, [], signed] hybridKey = true ∧
      verifies looseEnv ⟨payment, 0, 0, 0⟩ (combineSignatures looseEnv payment 0 0
        (oneOfOne hybridKey) (pushAll [[], signed]) (pushAll [[], signed]))
        (oneOfOne hybridKey) = false) ∧
    (Parses tooLong (replicate 10000 (0, []) ++ [(71, signed)]) ∧ Pushes looseEnv 0 [] [] ∧
      OneKeyEach looseEnv payment 0 (oneOfOne (pubKey true))
        (replicate 10000 [] ++ [signed]) [pubKey true] ∧
      covered looseEnv payment 0 (oneOfOne (pubKey true)) (replicate 10000 [] ++ [signed])
        (pubKey true) = true ∧
      combineSignatures looseEnv payment 0 0 (oneOfOne (pubKey true)) tooLong [] =
        pushAll [[], []]) := by
  have hgood : Pushes looseEnv 0 (pushAll [[], signed]) [[], signed] :=
    ⟨⟨[(0, []), (71, signed)], .cons rfl (.cons rfl .nil), by decide, rfl⟩, by decide +kernel⟩
  have hloose : Pushes looseEnv 0 (pushAll [[], loose]) [[], loose] :=
    ⟨⟨[(0, []), (2, loose)], .cons rfl (.cons rfl .nil), by decide, rfl⟩, by decide +kernel⟩
  refine ⟨⟨isMultiSig_oneOfOne.1, hloose, hgood, oneKeyEach _ _ _ _ _ _, by decide +kernel,
    by decide +kernel, by decide +kernel⟩, ⟨isMultiSig_oneOfOne.2, hgood, oneKeyEach _ _ _ _ _ _,
    by decide +kernel, by decide +kernel⟩, parses_placeholders (.cons rfl .nil) _,
    ⟨⟨[], .nil, by decide, rfl⟩, rfl⟩, oneKeyEach _ _ _ _ _ _, ?_, ?_⟩
  · exact any_eq_true.mpr ⟨signed, mem_append_right _ (.head _), by decide +kernel⟩
  · have hlen : tooLong.length > 10000 := by
      rw [tooLong, length_append, length_replicate]
      exact Nat.lt_add_of_pos_right (by decide)
    have hstack : evalScript looseEnv ⟨⟨1, 0, [], [], 0⟩, 0, 0, 0⟩ [] tooLong = (false, []) :=
      if_pos hlen
    have hempty : combineStacks looseEnv payment 0 (oneOfOne (pubKey true))
        (solver (oneOfOne (pubKey true))).2.1 (solver (oneOfOne (pubKey true))).2.2 [] [] =
          pushAll [[], []] := by decide +kernel
    rw [combineSignatures, hstack]
    exact hempty

end Loses

end Espers
