import Espers.Core.Amount
import Espers.Core.Data
import Espers.Lib.Exec

/-!
# Transactions: sizes, values and context-free checks

`checkTransaction` is `CTransaction::CheckTransaction`.  `checkTransaction_spec` says what a
transaction that passes it is known to satisfy; in particular the wrapping sum of its outputs is the
exact one (`sumValues_eq`), so `getValueOut` does not throw on it (`TxSane.getValueOut`).
-/

namespace Espers

open Exec List

/-- How a function of the source ends when it does not return normally or `true`. -/
inductive Stop where
  /-- `return error(msg)`. -/
  | error (msg : String)
  /-- `return DoS(nDoS, error(msg))`. -/
  | dos (nDoS : ℕ) (msg : String)
  /-- A bare `return false`. -/
  | refuse
  /-- An exception leaves the function. -/
  | exception (what : String)
  /-- A failed assertion, a null pointer followed, or a loop that does not end. -/
  | crash (why : String)
  deriving DecidableEq, Repr

/-- The function returned `false`. -/
def Stop.returnsFalse : Stop → Bool
  | .error _ | .dos _ _ | .refuse => true
  | .exception _ | .crash _ => false

/-- The caller's own error for a function that returned `false`. -/
def Stop.report (own : Stop) (e : Stop) : Stop := if e.returnsFalse then own else e

theorem Stop.returnsFalse_of_report {own e : Stop} (h : (own.report e).returnsFalse = true) :
    e.returnsFalse = true := by
  unfold report at h
  split_ifs at h with he
  · exact he
  · exact h

/-! ### Serialized sizes -/

/-- Bytes of the length prefix of a vector. -/
def getSizeOfCompactSize (nSize : ℕ) : ℕ :=
  if nSize < 253 then 1 else if nSize ≤ 0xFFFF then 3 else if nSize ≤ 0xFFFFFFFF then 5 else 9

/-- Bytes of a byte vector with its length prefix. -/
def sizeOfBytes (b : List UInt8) : ℕ := getSizeOfCompactSize b.length + b.length

/-- Bytes of an input. -/
def CTxIn.getSerializeSize (txin : CTxIn) : ℕ := 36 + sizeOfBytes txin.scriptSig + 4

/-- Bytes of an output. -/
def CTxOut.getSerializeSize (txout : CTxOut) : ℕ := 8 + sizeOfBytes txout.scriptPubKey

/-- Bytes of a transaction. -/
def CTransaction.getSerializeSize (tx : CTransaction) : ℕ :=
  4 + 4 + getSizeOfCompactSize tx.vin.length + (tx.vin.map CTxIn.getSerializeSize).sum +
    getSizeOfCompactSize tx.vout.length + (tx.vout.map CTxOut.getSerializeSize).sum + 4

/-- Bytes of the block header. -/
def headerSize : ℕ := 80

/-- Bytes of a block. -/
def CBlock.getSerializeSize (block : CBlock) : ℕ :=
  headerSize + getSizeOfCompactSize block.vtx.length +
    (block.vtx.map CTransaction.getSerializeSize).sum + sizeOfBytes block.vchBlockSig

theorem CTransaction.getSerializeSize_pos (tx : CTransaction) : 0 < tx.getSerializeSize := by
  unfold CTransaction.getSerializeSize; omega

/-- The running sum of `GetValueOut`, which throws when a value or the sum leaves the money
range. -/
def sumValues (nValueOut : ℤ) : List CTxOut → Except Stop ℤ
  | [] => .ok nValueOut
  | txout :: vout =>
    let nValueOut := add64 nValueOut txout.nValue
    if !moneyRange txout.nValue || !moneyRange nValueOut then
      .error (.exception "CTransaction::GetValueOut() : value out of range")
    else sumValues nValueOut vout

/-- The total value of the outputs. -/
def CTransaction.getValueOut (tx : CTransaction) : Except Stop ℤ := sumValues 0 tx.vout

/-- The exact total value of the outputs. -/
def CTransaction.valueOut (tx : CTransaction) : ℤ := (tx.vout.map CTxOut.nValue).sum

/-- A running sum that passes every range test is the exact one, and stays in range. -/
theorem sumValues_eq {vout : List CTxOut} {a r : ℤ} (ha : 0 ≤ a) (ha' : a ≤ 5000000000000000000)
    (h : sumValues a vout = .ok r) :
    r = a + (vout.map CTxOut.nValue).sum ∧ 0 ≤ r ∧ r ≤ 5000000000000000000 ∧
      ∀ txout ∈ vout, 0 ≤ txout.nValue ∧ txout.nValue ≤ 5000000000000000000 := by
  induction vout generalizing a with
  | nil =>
    simp only [sumValues, Except.ok.injEq] at h
    subst h
    simp [ha, ha']
  | cons txout vout ih =>
    simp only [sumValues] at h
    split_ifs at h with hc
    simp only [Bool.not_eq_eq_eq_not, Bool.not_true, Bool.or_eq_true, not_or,
      Bool.not_eq_false] at hc
    obtain ⟨hv, hs⟩ := hc
    have hv' := moneyRange_iff.1 hv
    have hs' := moneyRange_iff.1 hs
    have he := add64_of_moneyRange ha ha' hv'.1 hv'.2 hs
    obtain ⟨h1, h2, h3, h4⟩ := ih hs'.1 hs'.2 h
    refine ⟨by rw [h1, he, map_cons, sum_cons]; omega, h2, h3, ?_⟩
    intro t ht
    rcases mem_cons.1 ht with rfl | ht
    · exact hv'
    · exact h4 t ht

/-! ### Context-free checks -/

/-- The loop of `CheckTransaction` over the outputs. -/
def checkOutputs (tx : CTransaction) (nValueOut : ℤ) : List CTxOut → Except Stop ℤ
  | [] => .ok nValueOut
  | txout :: vout => do
    rejectIf (txout.isEmpty ∧ !tx.isCoinBase ∧ !tx.isCoinStake)
      (.dos 100 "CTransaction::CheckTransaction() : txout empty for user transaction")
    rejectIf (txout.nValue < 0)
      (.dos 100 "CTransaction::CheckTransaction() : txout.nValue negative")
    rejectIf (txout.nValue > maxSingleTx)
      (.dos 100 "CTransaction::CheckTransaction() : txout.nValue too high")
    let nValueOut := add64 nValueOut txout.nValue
    rejectIf (!moneyRange nValueOut)
      (.dos 100 "CTransaction::CheckTransaction() : txout total out of range")
    checkOutputs tx nValueOut vout

/-- The loop of `CheckTransaction` that looks for duplicate inputs. -/
def checkDuplicates (vInOutPoints : List COutPoint) : List CTxIn → Except Stop Unit
  | [] => .ok ()
  | txin :: vin => do
    rejectIf (txin.prevout ∈ vInOutPoints) .refuse
    checkDuplicates (txin.prevout :: vInOutPoints) vin

/-- The checks of a transaction that need no context; `maxBlockSize` is `MAX_BLOCK_SIZE`. -/
def checkTransaction (maxBlockSize : ℕ) (tx : CTransaction) : Except Stop Unit := do
  rejectIf (tx.vin = []) (.dos 10 "CTransaction::CheckTransaction() : vin empty")
  rejectIf (tx.vout = []) (.dos 10 "CTransaction::CheckTransaction() : vout empty")
  rejectIf (tx.getSerializeSize > maxBlockSize)
    (.dos 100 "CTransaction::CheckTransaction() : size limits failed")
  let _ ← checkOutputs tx 0 tx.vout
  checkDuplicates [] tx.vin
  if tx.isCoinBase then
    let n := (tx.vin.head?.map fun txin => txin.scriptSig.length).getD 0
    rejectIf (n < 2 ∨ n > 100)
      (.dos 100 "CTransaction::CheckTransaction() : coinbase script size is invalid")
  else
    rejectIf (tx.vin.any fun txin => txin.prevout.isNull)
      (.dos 10 "CTransaction::CheckTransaction() : prevout is null")

variable {tx : CTransaction}

theorem sumValues_of_checkOutputs {vout : List CTxOut} {a r : ℤ}
    (h : checkOutputs tx a vout = .ok r) : sumValues a vout = .ok r := by
  induction vout generalizing a with
  | nil => exact h
  | cons txout vout ih =>
    simp only [checkOutputs, except_bind_eq_ok, rejectIf_eq_ok, exists_const] at h
    obtain ⟨-, h0, h1, h2, h3⟩ := h
    have hv : moneyRange txout.nValue = true := by
      simp only [moneyRange, Bool.and_eq_true, decide_eq_true_eq]
      omega
    have hs : moneyRange (add64 a txout.nValue) = true := by simpa using h2
    simp only [sumValues, hv, hs]
    exact ih h3

theorem nodup_of_checkDuplicates {seen : List COutPoint} {vin : List CTxIn} {u : Unit}
    (h : checkDuplicates seen vin = .ok u) :
    (vin.map CTxIn.prevout).Nodup ∧ ∀ o ∈ vin.map CTxIn.prevout, o ∉ seen := by
  induction vin generalizing seen with
  | nil => simp
  | cons txin vin ih =>
    simp only [checkDuplicates, except_bind_eq_ok, rejectIf_eq_ok, exists_const] at h
    obtain ⟨hmem, h⟩ := h
    obtain ⟨hnd, hdis⟩ := ih h
    simp only [map_cons, nodup_cons, mem_cons, forall_eq_or_imp]
    refine ⟨⟨fun hin => ?_, hnd⟩, hmem, fun o ho => ?_⟩
    · exact hdis _ hin mem_cons_self
    · exact fun hs => hdis o ho (mem_cons_of_mem _ hs)

/-- What a transaction that passes `checkTransaction` satisfies. -/
structure TxSane (tx : CTransaction) : Prop where
  vin_ne : tx.vin ≠ []
  vout_ne : tx.vout ≠ []
  nodup : (tx.vin.map CTxIn.prevout).Nodup
  valueOut : sumValues 0 tx.vout = .ok tx.valueOut
  nonneg : 0 ≤ tx.valueOut
  le_max : tx.valueOut ≤ 5000000000000000000
  out_range : ∀ txout ∈ tx.vout, 0 ≤ txout.nValue ∧ txout.nValue ≤ 5000000000000000000
  not_null : tx.isCoinBase = false → ∀ txin ∈ tx.vin, txin.prevout.isNull = false
  script_le : tx.isCoinBase = true → (tx.vin.getD 0 default).scriptSig.length ≤ 100

theorem checkTransaction_spec {maxBlockSize : ℕ} {u : Unit}
    (h : checkTransaction maxBlockSize tx = .ok u) : TxSane tx := by
  simp only [checkTransaction, except_bind_eq_ok, rejectIf_eq_ok, exists_const] at h
  obtain ⟨hvin, hvout, -, r, hr, _, hdup, hnull⟩ := h
  have hsum := sumValues_of_checkOutputs hr
  obtain ⟨h1, h2, h3, h4⟩ := sumValues_eq le_rfl (by norm_num) hsum
  have hr' : r = tx.valueOut := by rw [h1, zero_add]; rfl
  subst hr'
  refine ⟨hvin, hvout, (nodup_of_checkDuplicates hdup).1, hsum, h2, h3, h4, fun hcb txin hin => ?_,
    fun hcb => ?_⟩
  · rw [hcb] at hnull
    simp only [Bool.false_eq_true, ↓reduceIte, rejectIf_eq_ok, any_eq_true, not_exists,
      not_and, Bool.not_eq_true] at hnull
    exact hnull txin hin
  · rw [hcb] at hnull
    simp only [↓reduceIte, rejectIf_eq_ok, not_or] at hnull
    cases hv : tx.vin with
    | nil => exact absurd hv hvin
    | cons txin vin =>
      rw [hv] at hnull
      simpa using hnull.2

theorem TxSane.getValueOut (h : TxSane tx) : tx.getValueOut = .ok tx.valueOut := h.valueOut

theorem TxSane.spends_nodup (h : TxSane tx) : tx.spends.Nodup := by
  unfold CTransaction.spends
  split_ifs
  · exact nodup_nil
  · exact h.nodup

end Espers
