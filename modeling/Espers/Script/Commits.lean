import Espers.Core.Codec
import Espers.Script.Frame

/-!
# What a signature commits to

`SignatureHash` blanks out parts of a copy of the transaction, by the hash type, and hashes what the
copy is serialized to.

* `delimits_transaction` : a transaction can be told from its serialization.
* `signatureHash_commits` : **equal hashes imply that everything agrees that the hash type commits
  to**, and if that agrees the hashes are equal.
-/

namespace Espers

open Wire List Nat
open Option hiding map

/-! ### Serializations tell transactions apart -/

/-- The integers have their widths, and the length of the script is a 64-bit number. -/
structure CTxIn.Sized (txin : CTxIn) : Prop where
  fits : txin.Fits
  scriptSig : txin.scriptSig.length < 2 ^ 64

/-- The integers have their widths, and the length of the script is a 64-bit number. -/
structure CTxOut.Sized (txout : CTxOut) : Prop where
  nValue : -2 ^ 63 ≤ txout.nValue ∧ txout.nValue < 2 ^ 63
  scriptPubKey : txout.scriptPubKey.length < 2 ^ 64

/-- The integers have their widths, and lengths are 64-bit numbers. -/
structure CTransaction.Sized (tx : CTransaction) : Prop where
  nVersion : -2 ^ 31 ≤ tx.nVersion ∧ tx.nVersion < 2 ^ 31
  nTime : tx.nTime < 2 ^ 32
  vin : tx.vin.length < 2 ^ 64 ∧ ∀ txin ∈ tx.vin, txin.Sized
  vout : tx.vout.length < 2 ^ 64 ∧ ∀ txout ∈ tx.vout, txout.Sized
  nLockTime : tx.nLockTime < 2 ^ 32

theorem delimits_txin : Delimits CTxIn.write CTxIn.Sized := by
  rintro ⟨⟨hash, n⟩, scriptSig, nSequence⟩ ⟨⟨hash', n'⟩, scriptSig', nSequence'⟩ r r' hx hy heq
  simp only [CTxIn.write, append_assoc] at heq
  have hhash := (reads_bits (w := 256) (k := 32) (by decide)).delimits
  obtain ⟨rfl, h1⟩ := hhash _ _ _ _ trivial trivial heq
  obtain ⟨rfl, h2⟩ := (reads_word 4).delimits _ _ _ _ hx.fits.n hy.fits.n h1
  obtain ⟨rfl, h3⟩ := delimits_vector _ _ _ _ hx.scriptSig hy.scriptSig h2
  obtain ⟨rfl, rfl⟩ := (reads_word 4).delimits _ _ _ _ hx.fits.nSequence hy.fits.nSequence h3
  exact ⟨rfl, rfl⟩

theorem delimits_txOut : Delimits CTxOut.serialize CTxOut.Sized := by
  rintro ⟨nValue, scriptPubKey⟩ ⟨nValue', scriptPubKey'⟩ r r' hx hy heq
  have hvalue : ∀ {txout : CTxOut}, txout.Sized →
      -256 ^ 8 ≤ 2 * txout.nValue ∧ 2 * txout.nValue < 256 ^ 8 := by
    intro txout h
    obtain ⟨hlow, hhigh⟩ := h.nValue
    omega
  obtain ⟨rfl, h1⟩ := (reads_int 8).delimits _ _ _ _ (hvalue hx) (hvalue hy) heq
  obtain ⟨rfl, rfl⟩ := delimits_vector _ _ _ _ hx.scriptPubKey hy.scriptPubKey h1
  exact ⟨rfl, rfl⟩

theorem delimits_transaction : Delimits CTransaction.serialize CTransaction.Sized := by
  rintro ⟨nVersion, nTime, vin, vout, nLockTime⟩ ⟨nVersion', nTime', vin', vout', nLockTime'⟩
    r r' hx hy heq
  simp only [CTransaction.serialize, append_assoc] at heq
  obtain ⟨rfl, h1⟩ := reads_int4.delimits _ _ _ _ hx.nVersion hy.nVersion heq
  obtain ⟨rfl, h2⟩ := (reads_word 4).delimits _ _ _ _ hx.nTime hy.nTime h1
  obtain ⟨rfl, h3⟩ := delimits_txin.list _ _ _ _ hx.vin hy.vin h2
  obtain ⟨rfl, h4⟩ := delimits_txOut.list _ _ _ _ hx.vout hy.vout h3
  obtain ⟨rfl, rfl⟩ := (reads_word 4).delimits _ _ _ _ hx.nLockTime hy.nLockTime h4
  exact ⟨rfl, rfl⟩

/-! ### The signed copy -/

/-- The arguments of `SignatureHash`. -/
structure SignatureCall where
  scriptCode : CScript
  txTo : CTransaction
  nIn : ℕ
  nHashType : ℤ

namespace SignatureCall

section Copy

variable (c : SignatureCall)

/-- The call. -/
def hash (E : ScriptEnv) : Uint256 := signatureHash E c.scriptCode c.txTo c.nIn c.nHashType

/-- The script code after the removal of `OP_CODESEPARATOR`. -/
def code : CScript := findAndDelete [0xab] c.scriptCode

/-- `SIGHASH_NONE`. -/
def None : Prop := c.nHashType % 32 = 2

/-- `SIGHASH_SINGLE`. -/
def Single : Prop := c.nHashType % 32 = 3

/-- `SIGHASH_ANYONECANPAY`. -/
def AnyoneCanPay : Prop := c.nHashType / 128 % 2 = 1

instance : Decidable c.None := inferInstanceAs (Decidable (c.nHashType % 32 = 2))

instance : Decidable c.Single := inferInstanceAs (Decidable (c.nHashType % 32 = 3))

instance : Decidable c.AnyoneCanPay := inferInstanceAs (Decidable (c.nHashType / 128 % 2 = 1))

/-- An input as it is signed. -/
def signedInput (i : ℕ) (txin : CTxIn) : CTxIn where
  prevout := txin.prevout
  scriptSig := if i = c.nIn then c.code else []
  nSequence := if i ≠ c.nIn ∧ (c.None ∨ c.Single) then 0 else txin.nSequence

/-- The inputs as they are signed. -/
def signedVin : List CTxIn :=
  let vin := c.txTo.vin.mapIdx c.signedInput
  if c.AnyoneCanPay then (vin.drop c.nIn).take 1 else vin

/-- The outputs as they are signed. -/
def signedVout : List CTxOut :=
  if c.None then []
  else if c.Single then
    (c.txTo.vout.take (c.nIn + 1)).mapIdx fun i txout => if i < c.nIn then ⟨-1, []⟩ else txout
  else c.txTo.vout

/-- The copy of the transaction that is serialized. -/
def signed : CTransaction := { c.txTo with vin := c.signedVin, vout := c.signedVout }

/-- What is hashed. -/
def bytes : List UInt8 := c.signed.serialize ++ writeInt 4 c.nHashType

/-- The input exists, with `SIGHASH_SINGLE` the output as well, and integers have their widths. -/
structure Valid : Prop where
  nIn : c.nIn < c.txTo.vin.length
  nOut : c.Single → c.nIn < c.txTo.vout.length
  scriptCode : c.scriptCode.length < 2 ^ 64
  txTo : c.txTo.Sized
  nHashType : -2 ^ 31 ≤ c.nHashType ∧ c.nHashType < 2 ^ 31

end Copy

variable {c c' : SignatureCall} {E : ScriptEnv}

theorem none_iff (h : c.nHashType = c'.nHashType) : c.None ↔ c'.None := by rw [None, None, h]

theorem single_iff (h : c.nHashType = c'.nHashType) : c.Single ↔ c'.Single := by
  rw [Single, Single, h]

theorem anyoneCanPay_iff (h : c.nHashType = c'.nHashType) : c.AnyoneCanPay ↔ c'.AnyoneCanPay := by
  rw [AnyoneCanPay, AnyoneCanPay, h]

theorem blankedInputs_eq (h : ¬(c.None ∨ c.Single)) :
    ((c.txTo.vin.map fun txin => { txin with scriptSig := [] }).modify c.nIn
      fun txin => { txin with scriptSig := c.code }) = c.txTo.vin.mapIdx c.signedInput := by
  refine ext_getElem? fun i => ?_
  rw [getElem?_modify, getElem?_map, getElem?_mapIdx]
  cases c.txTo.vin[i]? with
  | none => rfl
  | some txin =>
    have hseq : ¬(i ≠ c.nIn ∧ (c.None ∨ c.Single)) := fun hi => h hi.2
    rw [map_some, map_some, signedInput, if_neg hseq]
    by_cases hi : i = c.nIn
    · simp [hi]
    · simp [hi, Ne.symm hi]

theorem updatableInputs_eq (h : c.None ∨ c.Single) :
    (((c.txTo.vin.map fun txin => { txin with scriptSig := [] }).modify c.nIn
      fun txin => { txin with scriptSig := c.code }).mapIdx
        fun i txin => if i ≠ c.nIn then { txin with nSequence := 0 } else txin) =
      c.txTo.vin.mapIdx c.signedInput := by
  refine ext_getElem? fun i => ?_
  rw [getElem?_mapIdx, getElem?_modify, getElem?_map, getElem?_mapIdx]
  cases c.txTo.vin[i]? with
  | none => rfl
  | some txin =>
    rw [map_some, map_some, signedInput]
    by_cases hi : i = c.nIn
    · simp [hi]
    · simp [hi, Ne.symm hi, h]

/-- The hash is that of the signed copy. -/
theorem hash_eq (h : c.Valid) : c.hash E = E.hashTx c.signed c.nHashType := by
  rw [hash, signatureHash, if_neg (not_le.2 h.nIn)]
  by_cases hnone : c.nHashType % 32 = 2
  · have hvin := updatableInputs_eq (c := c) (.inl hnone)
    rw [code] at hvin
    rw [if_pos hnone, hvin, signed, signedVout, if_pos (show c.None from hnone)]
    rfl
  · rw [if_neg hnone]
    by_cases hsingle : c.nHashType % 32 = 3
    · have hvin := updatableInputs_eq (c := c) (.inr hsingle)
      rw [code] at hvin
      rw [if_pos hsingle, if_neg (not_le.2 (h.nOut hsingle)), hvin, signed, signedVout,
        if_neg (show ¬c.None from hnone), if_pos (show c.Single from hsingle)]
      rfl
    · have hvin := blankedInputs_eq (c := c) (not_or.2 ⟨hnone, hsingle⟩)
      rw [code] at hvin
      rw [if_neg hsingle, hvin, signed, signedVout, if_neg (show ¬c.None from hnone),
        if_neg (show ¬c.Single from hsingle)]
      rfl

/-! ### The copy is well formed -/

theorem length_findAndDeleteLoop_le (b : CScript) (k : ℕ) (script : CScript) :
    (findAndDeleteLoop b k script).length ≤ script.length := by
  induction k generalizing script with
  | zero => exact le_rfl
  | succ k ih =>
    rw [findAndDeleteLoop]
    split_ifs with hprefix
    · refine (ih _).trans ?_
      rw [length_drop]
      exact sub_le _ _
    · cases hop : getOp script with
      | none => exact le_rfl
      | some op =>
        obtain ⟨opcode, vch, rest⟩ := op
        have hrest := length_of_getOp hop
        have htail := ih rest
        simp only [length_append, length_take]
        omega

theorem length_code_le : c.code.length ≤ c.scriptCode.length := by
  rw [code, findAndDelete]
  split_ifs
  · exact le_rfl
  · exact length_findAndDeleteLoop_le _ _ _

theorem mem_mapIdx {α β : Type} {f : ℕ → α → β} {l : List α} {b : β} (h : b ∈ l.mapIdx f) :
    ∃ i, ∃ a ∈ l, b = f i a := by
  obtain ⟨i, hi, rfl⟩ := List.mem_mapIdx.1 h
  exact ⟨i, _, getElem_mem hi, rfl⟩

theorem Valid.signedInput_sized (h : c.Valid) (i : ℕ) {txin : CTxIn} (htxin : txin.Sized) :
    (c.signedInput i txin).Sized where
  fits := by
    refine ⟨htxin.fits.n, ?_⟩
    rw [signedInput]
    dsimp only
    split_ifs
    · exact Nat.two_pow_pos 32
    · exact htxin.fits.nSequence
  scriptSig := by
    rw [signedInput]
    dsimp only
    split_ifs
    · exact length_code_le.trans_lt h.scriptCode
    · exact Nat.two_pow_pos 64

theorem Valid.signedVin_sized (h : c.Valid) :
    c.signedVin.length < 2 ^ 64 ∧ ∀ txin ∈ c.signedVin, txin.Sized := by
  have hsub : c.signedVin.Sublist (c.txTo.vin.mapIdx c.signedInput) := by
    rw [signedVin]
    split_ifs
    · exact (take_sublist _ _).trans (drop_sublist _ _)
    · exact List.Sublist.refl _
  constructor
  · have hlength := hsub.length_le
    rw [length_mapIdx] at hlength
    exact hlength.trans_lt h.txTo.vin.1
  · intro txin htxin
    obtain ⟨i, x, hx, rfl⟩ := mem_mapIdx (hsub.subset htxin)
    exact h.signedInput_sized i (h.txTo.vin.2 x hx)

theorem Valid.signedVout_sized (h : c.Valid) :
    c.signedVout.length < 2 ^ 64 ∧ ∀ txout ∈ c.signedVout, txout.Sized := by
  rw [signedVout]
  split_ifs
  · exact ⟨Nat.two_pow_pos 64, fun txout htxout => absurd htxout not_mem_nil⟩
  · constructor
    · rw [length_mapIdx]
      exact (length_take_le' _ _).trans_lt h.txTo.vout.1
    · intro txout htxout
      obtain ⟨i, x, hx, rfl⟩ := mem_mapIdx htxout
      split_ifs
      · exact ⟨by norm_num, Nat.two_pow_pos 64⟩
      · exact h.txTo.vout.2 x (mem_of_mem_take hx)
  · exact h.txTo.vout

theorem Valid.signed_sized (h : c.Valid) : c.signed.Sized where
  nVersion := h.txTo.nVersion
  nTime := h.txTo.nTime
  vin := h.signedVin_sized
  vout := h.signedVout_sized
  nLockTime := h.txTo.nLockTime

theorem Valid.of_bytes (h : c.Valid) (h' : c'.Valid) (heq : c.bytes = c'.bytes) :
    c.signed = c'.signed ∧ c.nHashType = c'.nHashType := by
  obtain ⟨hsigned, htype⟩ := delimits_transaction _ _ _ _ h.signed_sized h'.signed_sized heq
  refine ⟨hsigned, ?_⟩
  have htype' : writeInt 4 c.nHashType ++ [] = writeInt 4 c'.nHashType ++ [] := by rw [htype]
  exact (reads_int4.delimits _ _ _ _ h.nHashType h'.nHashType htype').1

/-! ### What the hash commits to -/

/-- The outpoint that the signed input spends, and its sequence. -/
def spent (c : SignatureCall) : Option (COutPoint × ℕ) :=
  c.txTo.vin[c.nIn]?.map fun txin => (txin.prevout, txin.nSequence)

/-- Two calls agree in everything that a signature commits to. -/
structure Commits (c c' : SignatureCall) : Prop where
  nHashType : c.nHashType = c'.nHashType
  nVersion : c.txTo.nVersion = c'.txTo.nVersion
  nTime : c.txTo.nTime = c'.txTo.nTime
  nLockTime : c.txTo.nLockTime = c'.txTo.nLockTime
  code : c.code = c'.code
  spent : c.code ≠ [] ∨ c.AnyoneCanPay → c.spent = c'.spent
  /-- The position of the signed input. -/
  nIn : (c.code ≠ [] ∧ ¬c.AnyoneCanPay) ∨ c.Single → c.nIn = c'.nIn
  /-- `SIGHASH_ALL`. -/
  vout : ¬c.None → ¬c.Single → c.txTo.vout = c'.txTo.vout
  output : c.Single → c.txTo.vout[c.nIn]? = c'.txTo.vout[c'.nIn]?
  prevouts : ¬c.AnyoneCanPay → c.txTo.vin.map CTxIn.prevout = c'.txTo.vin.map CTxIn.prevout
  sequences : ¬c.AnyoneCanPay → ¬c.None → ¬c.Single →
    c.txTo.vin.map CTxIn.nSequence = c'.txTo.vin.map CTxIn.nSequence

/-- Only fields differ that are left out. -/
structure Agrees (c c' : SignatureCall) : Prop where
  commits : c.Commits c'
  spent : c.spent = c'.spent
  nIn : ¬c.AnyoneCanPay → c.nIn = c'.nIn

theorem signedVin_of_anyoneCanPay (h : c.AnyoneCanPay) :
    c.signedVin = (c.txTo.vin[c.nIn]?.map (c.signedInput c.nIn)).toList := by
  rw [signedVin, if_pos h, take_one, head?_drop, getElem?_mapIdx]

theorem getElem?_signedVin (h : ¬c.AnyoneCanPay) (i : ℕ) :
    c.signedVin[i]? = c.txTo.vin[i]?.map (c.signedInput i) := by
  rw [signedVin, if_neg h, getElem?_mapIdx]

theorem Valid.exists_input (h : c.Valid) : ∃ txin, c.txTo.vin[c.nIn]? = some txin :=
  ⟨_, getElem?_eq_getElem h.nIn⟩

theorem signedInput_self (txin : CTxIn) :
    c.signedInput c.nIn txin = ⟨txin.prevout, c.code, txin.nSequence⟩ := by
  rw [signedInput, if_pos rfl, if_neg fun h => h.1 rfl]

theorem Valid.anyoneCanPay (h : c.Valid) (h' : c'.Valid) (hacp : c.AnyoneCanPay)
    (hacp' : c'.AnyoneCanPay) (heq : c.signedVin = c'.signedVin) :
    c.code = c'.code ∧ c.spent = c'.spent := by
  obtain ⟨txin, htxin⟩ := h.exists_input
  obtain ⟨txin', htxin'⟩ := h'.exists_input
  rw [signedVin_of_anyoneCanPay hacp, signedVin_of_anyoneCanPay hacp', htxin, htxin',
    map_some, map_some, signedInput_self, signedInput_self] at heq
  simp only [toList_some, cons.injEq, CTxIn.mk.injEq, and_true] at heq
  obtain ⟨hprevout, hcode, hsequence⟩ := heq
  refine ⟨hcode, ?_⟩
  rw [spent, spent, htxin, htxin', map_some, map_some, hprevout, hsequence]

theorem Valid.nIn_of_vin (h : c.Valid) (hacp : ¬c.AnyoneCanPay) (hacp' : ¬c'.AnyoneCanPay)
    (heq : c.signedVin = c'.signedVin) (hcode : c.code ≠ []) : c.nIn = c'.nIn := by
  obtain ⟨txin, htxin⟩ := h.exists_input
  have hat : c.signedVin[c.nIn]? = c'.signedVin[c.nIn]? := by rw [heq]
  rw [getElem?_signedVin hacp, getElem?_signedVin hacp', htxin, map_some, signedInput_self] at hat
  obtain ⟨txin', -, hsigned⟩ := map_eq_some_iff.1 hat.symm
  by_contra hne
  have hscript := congrArg CTxIn.scriptSig hsigned
  rw [signedInput, if_neg hne] at hscript
  exact hcode hscript.symm

theorem Valid.of_vin (h : c.Valid) (h' : c'.Valid) (hacp : ¬c.AnyoneCanPay)
    (hacp' : ¬c'.AnyoneCanPay) (heq : c.signedVin = c'.signedVin) :
    c.code = c'.code ∧ (c.code ≠ [] → c.spent = c'.spent) ∧
      c.txTo.vin.map CTxIn.prevout = c'.txTo.vin.map CTxIn.prevout := by
  have hat : ∀ i, c.txTo.vin[i]?.map (c.signedInput i) =
      c'.txTo.vin[i]?.map (c'.signedInput i) := by
    intro i
    rw [← getElem?_signedVin hacp, ← getElem?_signedVin hacp', heq]
  have hsame : c.nIn = c'.nIn → c.code = c'.code ∧ c.spent = c'.spent := by
    intro hn
    obtain ⟨txin, htxin⟩ := h.exists_input
    obtain ⟨txin', htxin'⟩ := h'.exists_input
    have hinput := hat c.nIn
    rw [htxin] at hinput
    rw [hn, htxin', map_some, map_some, signedInput_self, ← hn, signedInput_self] at hinput
    simp only [some.injEq, CTxIn.mk.injEq] at hinput
    obtain ⟨hprevout, hcode, hsequence⟩ := hinput
    refine ⟨hcode, ?_⟩
    rw [spent, spent, htxin, htxin', map_some, map_some, hprevout, hsequence]
  refine ⟨?_, fun hcode => (hsame (h.nIn_of_vin hacp hacp' heq hcode)).2, ?_⟩
  · by_cases hcode : c.code = []
    · by_cases hcode' : c'.code = []
      · rw [hcode, hcode']
      · exact (hsame (h'.nIn_of_vin hacp' hacp heq.symm hcode').symm).1
    · exact (hsame (h.nIn_of_vin hacp hacp' heq hcode)).1
  · refine ext_getElem? fun i => ?_
    have hprevout := congrArg (Option.map CTxIn.prevout) (hat i)
    rw [Option.map_map, Option.map_map] at hprevout
    rw [getElem?_map, getElem?_map]
    exact hprevout

theorem Valid.signedVout_of_single (h : c.Valid) (hnone : ¬c.None) (hsingle : c.Single) :
    c.signedVout = replicate c.nIn ⟨-1, []⟩ ++ c.txTo.vout[c.nIn]?.toList := by
  have hlength : (c.txTo.vout.take c.nIn).length = c.nIn :=
    length_take_of_le (h.nOut hsingle).le
  rw [signedVout, if_neg hnone, if_pos hsingle, take_add_one, mapIdx_append, hlength]
  congr 1
  · refine eq_replicate_iff.2 ⟨by rw [length_mapIdx, hlength], fun txout htxout => ?_⟩
    obtain ⟨i, hi, rfl⟩ := List.mem_mapIdx.1 htxout
    exact if_pos (hlength ▸ hi)
  · rw [getElem?_eq_getElem (h.nOut hsingle)]
    exact congrArg (List.cons · []) (if_neg (by omega))

theorem Valid.output_of_vout (h : c.Valid) (h' : c'.Valid) (hnone : ¬c.None) (hnone' : ¬c'.None)
    (hsingle : c.Single) (hsingle' : c'.Single) (heq : c.signedVout = c'.signedVout) :
    c.nIn = c'.nIn ∧ c.txTo.vout[c.nIn]? = c'.txTo.vout[c'.nIn]? := by
  rw [h.signedVout_of_single hnone hsingle, h'.signedVout_of_single hnone' hsingle',
    getElem?_eq_getElem (h.nOut hsingle), getElem?_eq_getElem (h'.nOut hsingle')] at heq
  obtain ⟨hreplicate, houtput⟩ := append_inj' heq rfl
  have hlength := congrArg List.length hreplicate
  rw [length_replicate, length_replicate] at hlength
  refine ⟨hlength, ?_⟩
  rw [getElem?_eq_getElem (h.nOut hsingle), getElem?_eq_getElem (h'.nOut hsingle')]
  exact congrArg some (cons.inj houtput).1

theorem Valid.commits (h : c.Valid) (h' : c'.Valid) (hsigned : c.signed = c'.signed)
    (htype : c.nHashType = c'.nHashType) : c.Commits c' := by
  have hvin : c.signed.vin = c'.signed.vin := by rw [hsigned]
  have hvout : c.signed.vout = c'.signed.vout := by rw [hsigned]
  change c.signedVin = c'.signedVin at hvin
  change c.signedVout = c'.signedVout at hvout
  have hnone := none_iff htype
  have hsingle := single_iff htype
  have hacp := anyoneCanPay_iff htype
  -- `SIGHASH_SINGLE` is not `SIGHASH_NONE`
  have hother : c.Single → ¬c.None := by
    intro hs hn
    rw [Single] at hs
    rw [None] at hn
    omega
  have houtput : c.Single →
      c.nIn = c'.nIn ∧ c.txTo.vout[c.nIn]? = c'.txTo.vout[c'.nIn]? := fun hs =>
    h.output_of_vout h' (hother hs) (fun hn => hother hs (hnone.2 hn)) hs (hsingle.1 hs) hvout
  have hnoacp : ¬c.AnyoneCanPay → ¬c'.AnyoneCanPay := fun hn ha => hn (hacp.2 ha)
  have hcode : c.code = c'.code ∧ (c.code ≠ [] ∨ c.AnyoneCanPay → c.spent = c'.spent) := by
    by_cases ha : c.AnyoneCanPay
    · obtain ⟨hcode, hspent⟩ := h.anyoneCanPay h' ha (hacp.1 ha) hvin
      exact ⟨hcode, fun _ => hspent⟩
    · obtain ⟨hcode, hspent, -⟩ := h.of_vin h' ha (hnoacp ha) hvin
      exact ⟨hcode, fun hor => hspent (hor.resolve_right ha)⟩
  have hversion : c.signed.nVersion = c'.signed.nVersion := by rw [hsigned]
  have htime : c.signed.nTime = c'.signed.nTime := by rw [hsigned]
  have hlock : c.signed.nLockTime = c'.signed.nLockTime := by rw [hsigned]
  refine ⟨htype, hversion, htime, hlock, hcode.1, hcode.2, ?_, ?_, fun hs => (houtput hs).2,
    fun ha => (h.of_vin h' ha (hnoacp ha) hvin).2.2, ?_⟩
  · rintro (⟨hne, ha⟩ | hs)
    · exact h.nIn_of_vin ha (hnoacp ha) hvin hne
    · exact (houtput hs).1
  · intro hn hs
    rw [signedVout, if_neg hn, if_neg hs, signedVout, if_neg fun h => hn (hnone.2 h),
      if_neg fun h => hs (hsingle.2 h)] at hvout
    exact hvout
  · intro ha hn hs
    refine ext_getElem? fun i => ?_
    have hat : c.signedVin[i]? = c'.signedVin[i]? := by rw [hvin]
    rw [getElem?_signedVin ha, getElem?_signedVin (hnoacp ha)] at hat
    have hsequence := congrArg (Option.map CTxIn.nSequence) hat
    have hall : ∀ txin, (c.signedInput i txin).nSequence = txin.nSequence := fun txin =>
      if_neg fun h => h.2.elim hn hs
    have hall' : ∀ txin, (c'.signedInput i txin).nSequence = txin.nSequence := fun txin =>
      if_neg fun h => h.2.elim (fun h => hn (hnone.2 h)) fun h => hs (hsingle.2 h)
    rw [Option.map_map, Option.map_map, show CTxIn.nSequence ∘ c.signedInput i = CTxIn.nSequence
      from funext hall, show CTxIn.nSequence ∘ c'.signedInput i = CTxIn.nSequence
      from funext hall'] at hsequence
    rw [getElem?_map, getElem?_map, hsequence]

/-! ### What is left out -/

theorem map_signedInput :
    c.txTo.vin[c.nIn]?.map (c.signedInput c.nIn) = c.spent.map fun e => ⟨e.1, c.code, e.2⟩ := by
  rw [spent, Option.map_map]
  exact congrArg (fun f => Option.map f _) (funext signedInput_self)

theorem Agrees.signedVin (h : c.Agrees c') : c.signedVin = c'.signedVin := by
  have hnone := none_iff h.commits.nHashType
  have hsingle := single_iff h.commits.nHashType
  have hacp := anyoneCanPay_iff h.commits.nHashType
  have hself : c.txTo.vin[c.nIn]?.map (c.signedInput c.nIn) =
      c'.txTo.vin[c'.nIn]?.map (c'.signedInput c'.nIn) := by
    rw [map_signedInput, map_signedInput, h.spent, h.commits.code]
  by_cases ha : c.AnyoneCanPay
  · rw [signedVin_of_anyoneCanPay ha, signedVin_of_anyoneCanPay (hacp.1 ha), hself]
  · have ha' : ¬c'.AnyoneCanPay := fun h => ha (hacp.2 h)
    have hn := h.nIn ha
    refine ext_getElem? fun i => ?_
    rw [getElem?_signedVin ha, getElem?_signedVin ha']
    by_cases hi : i = c.nIn
    · rw [hi, hself, hn]
    · have hi' : i ≠ c'.nIn := hn ▸ hi
      have hprevout : (c.txTo.vin.map CTxIn.prevout)[i]? = (c'.txTo.vin.map CTxIn.prevout)[i]? := by
        rw [h.commits.prevouts ha]
      rw [getElem?_map, getElem?_map] at hprevout
      by_cases hupdatable : c.None ∨ c.Single
      · have hupdatable' : c'.None ∨ c'.Single := hupdatable.imp hnone.1 hsingle.1
        have hinput : c.signedInput i = (fun o => ⟨o, [], 0⟩) ∘ CTxIn.prevout :=
          funext fun txin => by
            rw [signedInput, if_neg hi, if_pos ⟨hi, hupdatable⟩]
            rfl
        have hinput' : c'.signedInput i = (fun o => ⟨o, [], 0⟩) ∘ CTxIn.prevout :=
          funext fun txin => by
            rw [signedInput, if_neg hi', if_pos ⟨hi', hupdatable'⟩]
            rfl
        rw [hinput, hinput', ← Option.map_map, hprevout, Option.map_map]
      · obtain ⟨hall, hall'⟩ := not_or.1 hupdatable
        have hupdatable' : ¬(c'.None ∨ c'.Single) := fun h => hupdatable (h.imp hnone.2 hsingle.2)
        have hsequence : (c.txTo.vin.map CTxIn.nSequence)[i]? =
            (c'.txTo.vin.map CTxIn.nSequence)[i]? := by
          rw [h.commits.sequences ha hall hall']
        rw [getElem?_map, getElem?_map] at hsequence
        cases hx : c.txTo.vin[i]? with
        | none =>
          rw [hx, map_none] at hprevout
          rw [map_eq_none_iff.1 hprevout.symm]
          rfl
        | some txin =>
          rw [hx, map_some] at hprevout hsequence
          obtain ⟨txin', htxin', hp⟩ := map_eq_some_iff.1 hprevout.symm
          rw [htxin', map_some, some.injEq] at hsequence
          rw [htxin', map_some, map_some, signedInput, signedInput, if_neg hi,
            if_neg hi', if_neg fun h => hupdatable h.2, if_neg fun h => hupdatable' h.2, hp,
            hsequence]

theorem Agrees.signedVout (h : c.Valid) (h' : c'.Valid) (hagrees : c.Agrees c') :
    c.signedVout = c'.signedVout := by
  have hnone := none_iff hagrees.commits.nHashType
  have hsingle := single_iff hagrees.commits.nHashType
  by_cases hn : c.None
  · have hn' : c'.None := hnone.1 hn
    rw [SignatureCall.signedVout, if_pos hn, SignatureCall.signedVout, if_pos hn']
  · have hn' : ¬c'.None := fun h => hn (hnone.2 h)
    by_cases hs : c.Single
    · have hs' : c'.Single := hsingle.1 hs
      rw [h.signedVout_of_single hn hs, h'.signedVout_of_single hn' hs',
        hagrees.commits.nIn (.inr hs), ← hagrees.commits.output hs,
        hagrees.commits.nIn (.inr hs)]
    · have hs' : ¬c'.Single := fun h => hs (hsingle.2 h)
      rw [SignatureCall.signedVout, if_neg hn, if_neg hs, SignatureCall.signedVout, if_neg hn',
        if_neg hs', hagrees.commits.vout hn hs]

theorem Agrees.signed (h : c.Valid) (h' : c'.Valid) (hagrees : c.Agrees c') :
    c.signed = c'.signed := by
  have hvin := hagrees.signedVin
  have hvout := hagrees.signedVout h h'
  rw [SignatureCall.signed, SignatureCall.signed, hvin, hvout]
  obtain ⟨-, hversion, htime, hlock, -⟩ := hagrees.commits
  rw [hversion, htime, hlock]

end SignatureCall

/-- **What a signature commits to**, if the hash is injective on the bytes that are hashed.  Calls
with one hash agree in everything that the hash type commits to, and calls that agree in that, in
the signed input and in its position (any position with `SIGHASH_ANYONECANPAY`) have one hash. -/
theorem signatureHash_commits {E : ScriptEnv} {H : List UInt8 → Uint256} {S : Set (List UInt8)}
    (hhash : ∀ tx nHashType, E.hashTx tx nHashType = H (tx.serialize ++ writeInt 4 nHashType))
    (hinj : Set.InjOn H S) {c c' : SignatureCall} (h : c.Valid) (h' : c'.Valid) :
    (c.bytes ∈ S → c'.bytes ∈ S → c.hash E = c'.hash E → c.Commits c') ∧
    (c.Agrees c' → c.hash E = c'.hash E) := by
  constructor
  · intro hmem hmem' heq
    rw [SignatureCall.hash_eq h, SignatureCall.hash_eq h', hhash, hhash] at heq
    obtain ⟨hsigned, htype⟩ := h.of_bytes h' (hinj hmem hmem' heq)
    exact h.commits h' hsigned htype
  · intro hagrees
    rw [SignatureCall.hash_eq h, SignatureCall.hash_eq h', hagrees.signed h h',
      hagrees.commits.nHashType]

namespace signedOnce

/-- A hash of the fifth to eighth byte, where the time is. -/
def hashBytes (b : List UInt8) : Uint256 := BitVec.ofNat 256 (valueLE ((b.drop 4).take 4))

/-- Transactions are hashed with it. -/
def env : ScriptEnv where
  pubKeyOf _ fCompressed := if fCompressed then replicate 33 3 else replicate 65 4
  hash160 _ := 0
  hash _ := 0
  length_pubKeyOf _ fCompressed := by cases fCompressed <;> rfl
  ripemd160 _ := 0
  sha1 _ := 0
  sha256 _ := 0
  verify _ _ _ := false
  hashTx tx nHashType := hashBytes (tx.serialize ++ writeInt 4 nHashType)

/-- One input is signed with `SIGHASH_ALL`, at some time and with some script in it. -/
def call (nTime : ℕ) (scriptSig : CScript) : SignatureCall :=
  ⟨[0xab, 0x51], ⟨1, nTime, [⟨⟨0, 0⟩, scriptSig, 0⟩], [⟨5, []⟩], 0⟩, 0, 1⟩

theorem valid {nTime : ℕ} {scriptSig : CScript} (htime : nTime < 2 ^ 32)
    (hscript : scriptSig.length < 2 ^ 64) : (call nTime scriptSig).Valid where
  nIn := zero_lt_one
  nOut _ := zero_lt_one
  scriptCode := show 2 < 2 ^ 64 by norm_num
  txTo := by
    refine ⟨⟨show -2 ^ 31 ≤ (1 : ℤ) by norm_num, show (1 : ℤ) < 2 ^ 31 by norm_num⟩, htime,
      ⟨show 1 < 2 ^ 64 by norm_num, ?_⟩, ⟨show 1 < 2 ^ 64 by norm_num, ?_⟩, Nat.two_pow_pos 32⟩
    · intro txin htxin
      obtain rfl := mem_singleton.1 htxin
      exact ⟨⟨Nat.two_pow_pos 32, Nat.two_pow_pos 32⟩, hscript⟩
    · intro txout htxout
      obtain rfl := mem_singleton.1 htxout
      exact ⟨by decide, Nat.two_pow_pos 64⟩
  nHashType := ⟨show -2 ^ 31 ≤ (1 : ℤ) by norm_num, show (1 : ℤ) < 2 ^ 31 by norm_num⟩

end signedOnce

open signedOnce in
theorem signatureHash_commits_once : (call 1 []).hash env ≠ (call 2 []).hash env ∧
    (call 1 []).hash env = (call 1 [0x51]).hash env := by
  have hinj : Set.InjOn hashBytes ({(call 1 []).bytes, (call 2 []).bytes} : Set (List UInt8)) := by
    rintro x (rfl | rfl) y (rfl | rfl) heq
    · rfl
    · exact absurd heq (by decide)
    · exact absurd heq (by decide)
    · rfl
  have hvalid : ∀ nTime < 3, ∀ scriptSig ∈ [[], [0x51]], (call nTime scriptSig).Valid := by
    intro nTime htime scriptSig hscript
    refine valid (by omega) ?_
    simp only [mem_cons, not_mem_nil, or_false] at hscript
    rcases hscript with rfl | rfl <;> decide
  have hagrees : (call 1 []).Agrees (call 1 [0x51]) :=
    ⟨⟨rfl, rfl, rfl, rfl, rfl, fun _ => rfl, fun _ => rfl, fun _ _ => rfl, fun _ => rfl,
      fun _ => rfl, fun _ _ _ => rfl⟩, rfl, fun _ => rfl⟩
  refine ⟨fun heq => ?_, ?_⟩
  · have hcommits := (signatureHash_commits (E := env) (fun _ _ => rfl) hinj
      (hvalid 1 (by decide) [] (by decide)) (hvalid 2 (by decide) [] (by decide))).1
      (.inl rfl) (.inr rfl) heq
    exact absurd hcommits.nTime (by decide)
  · exact (signatureHash_commits (E := env) (fun _ _ => rfl) hinj
      (hvalid 1 (by decide) [] (by decide)) (hvalid 1 (by decide) [0x51] (by decide))).2 hagrees

end Espers
