import Espers.Chain.BestChain
import Espers.Core.Merkle

/-!
# Range checks and wrapping sums

`MAX_SINGLE_TX` is more than half of what an `int64_t` holds, so the sum of two amounts in range may
wrap. A wrapped sum is negative, and the range test after every addition sees it.

* `checkInputs_outputs` : the sum of the first loop of `ConnectInputs` is the exact one.
* `moneyRange_sound` : **the outputs of a transaction that is checked, and the outputs spent by one
  that is connected, have an exact total in range**.
-/

namespace Espers

open Exec

variable {E : Env} {tx : CTransaction} {inputs : MapPrevTx}

/-- The outputs that inputs spend. -/
def SpentOutputs (inputs : MapPrevTx) (vin : List CTxIn) (vout : List CTxOut) : Prop :=
  List.Forall₂ (fun txin txout => getOutputFor txin inputs = .ok txout) vin vout

/-- The running sum over the inputs is the exact one, from a start in range. -/
theorem checkInputs_outputs {m : BlockMap} {p : Option Uint256} {vin : List CTxIn} {a r : ℤ}
    (ha : 0 ≤ a) (ha' : a ≤ 5000000000000000000) (h : checkInputs E m p tx inputs a vin = .ok r) :
    ∃ vout, SpentOutputs inputs vin vout ∧ r = a + (vout.map CTxOut.nValue).sum ∧ 0 ≤ r ∧
      r ≤ 5000000000000000000 := by
  induction vin generalizing a with
  | nil =>
    simp only [checkInputs, Except.ok.injEq] at h
    subst h
    exact ⟨[], .nil, by simp, ha, ha'⟩
  | cons txin vin ih =>
    obtain ⟨txindex, txPrev, txout, hl, hout, -, -, -, -, ⟨hvalue, hsum⟩, h⟩ := checkInputs_cons h
    have hvalue' := moneyRange_iff.1 hvalue
    have hsum' := moneyRange_iff.1 hsum
    -- both summands are in range, so the sum would be negative if it had wrapped
    have hadd := add64_of_moneyRange ha ha' hvalue'.1 hvalue'.2 hsum
    obtain ⟨vout, hspent, hr, hnonneg, hle⟩ := ih hsum'.1 hsum'.2 h
    refine ⟨txout :: vout, .cons ?_ hspent, ?_, hnonneg, hle⟩
    · rw [getOutputFor, hl]
      simp only [hout]
    · rw [hr, hadd, List.map_cons, List.sum_cons]
      omega

theorem valueOut_of_checkFees {a : ℤ} (hstake : tx.isCoinStake = false)
    (h : checkFees tx a = .ok ()) : tx.valueOut ≤ a := by
  simp only [checkFees, hstake, Bool.false_eq_true, if_false, except_bind_eq_ok, rejectIf_eq_ok,
    exists_and_left, not_lt] at h
  obtain ⟨nValueOut, hout, hle, -⟩ := h
  obtain ⟨heq, -⟩ := sumValues_eq le_rfl (by norm_num) hout
  rw [zero_add] at heq
  rw [CTransaction.valueOut, ← heq]
  exact hle

/-- **Range checks are sound under wrap-around.**  A transaction that passes `CheckTransaction` has
outputs with an exact total in range, which `GetValueOut` returns; one that passes `ConnectInputs`
spends outputs with an exact total in range, which its own outputs do not exceed unless it is a
coinstake. -/
theorem moneyRange_sound :
    (∀ (maxBlockSize : ℕ) (tx : CTransaction), checkTransaction maxBlockSize tx = .ok () →
      0 ≤ tx.valueOut ∧ tx.valueOut ≤ maxSingleTx ∧ tx.getValueOut = .ok tx.valueOut) ∧
    ∀ (E : Env) (w : World) (tx : CTransaction) (inputs : MapPrevTx) (mapTestPool mapTestPool' : MapTxIndex)
      (posThisTx : CDiskTxPos) (pindexBlock : Option Uint256) (fBlock fMiner : Bool) (flags : ℕ),
      tx.isCoinBase = false →
      connectInputs E w tx inputs mapTestPool posThisTx pindexBlock fBlock fMiner flags =
      .ok mapTestPool' → ∃ vout, SpentOutputs inputs tx.vin vout ∧
      0 ≤ (vout.map CTxOut.nValue).sum ∧ (vout.map CTxOut.nValue).sum ≤ maxSingleTx ∧
        (tx.isCoinStake = false → tx.valueOut ≤ (vout.map CTxOut.nValue).sum) := by
  have hmax : maxSingleTx = 5000000000000000000 := by decide
  refine ⟨fun maxBlockSize tx h => ?_, ?_⟩
  · have hsane := checkTransaction_spec h
    exact ⟨hsane.nonneg, hmax ▸ hsane.le_max, hsane.valueOut⟩
  · intro E w tx inputs q q' pos p fBlock fMiner flags hcb h
    simp only [connectInputs, hcb, Bool.false_eq_true, if_false, except_bind_eq_ok,
      Except.ok.injEq] at h
    obtain ⟨nValueIn, hcheck, _, -, _, hfees, rfl⟩ := h
    obtain ⟨vout, hspent, hr, hnonneg, hle⟩ := checkInputs_outputs le_rfl (by norm_num) hcheck
    rw [zero_add] at hr
    subst hr
    exact ⟨vout, hspent, hnonneg, hmax ▸ hle, fun hstake => valueOut_of_checkFees hstake hfees⟩

/-! ### Two payments -/

/-- A transaction that pays `values`. -/
def payingTx (values : List ℤ) : CTransaction where
  nVersion := 1
  nTime := 0
  vin := [⟨⟨7, 0⟩, [], uintMax⟩, ⟨⟨7, 1⟩, [], uintMax⟩]
  vout := values.map fun v => ⟨v, [0x51]⟩
  nLockTime := 0

/-- The parent of its inputs. -/
def payingParent : MapPrevTx :=
  AList.insert 7 (.ofOutputs .inMemory 2, payingTx [2000000000000000000, 3000000000000000000]) ∅

/-- Two outputs that fill the range are spent. -/
theorem moneyRange_sound_paying :
    (payingTx [5000000000000000000]).getValueOut = .ok (payingTx [5000000000000000000]).valueOut ∧
      ∃ vout, SpentOutputs payingParent (payingTx [5000000000000000000]).vin vout ∧
        (vout.map CTxOut.nValue).sum ≤ maxSingleTx := by
  have hok : (connectInputs pairingEnv emptyWorld (payingTx [5000000000000000000]) payingParent ∅
    .inMemory none
      true false 0).isOk = true := by decide
  cases hrun : connectInputs pairingEnv emptyWorld (payingTx [5000000000000000000]) payingParent ∅
    .inMemory none
      true false 0 with
  | error e =>
    rw [hrun] at hok
    cases hok
  | ok q =>
    obtain ⟨vout, hspent, -, hle, -⟩ := moneyRange_sound.2 _ _ _ _ _ _ _ _ _ _ _ (by decide) hrun
    exact ⟨(moneyRange_sound.1 1000 (payingTx [5000000000000000000]) (by decide)).2.2,
      vout, hspent, hle⟩

/-- Two outputs in range whose wrapped sum is negative. -/
example : (payingTx [5000000000000000000, 5000000000000000000]).getValueOut =
    .error (.exception "CTransaction::GetValueOut() : value out of range") := by decide

end Espers
