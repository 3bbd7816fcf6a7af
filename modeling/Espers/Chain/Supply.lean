import Espers.Chain.Undo
import Mathlib.Algebra.BigOperators.Group.Finset.Piecewise
import Mathlib.Data.Fintype.Basic

/-!
# The money supply

`totalUnspent` is the value of all unspent outputs of the transaction index.  Connecting the
transactions of a block changes it by what they put out less what they take in
(`totalUnspent_connectTxs`); `ConnectBlock` changes `nMoneySupply` by the same amount, in 64-bit
arithmetic (`ConnectTrace.supply`).

* `ConnectTrace.supply_sub` : a connected block raises the counter by at most its reward without
  fees, and that is at most the subsidy (`ConnectTrace.reward_pow`, `ConnectTrace.reward_pos`).
* `ConnectTrace.minted_le` : the same for the exact values, whatever the counter does.
-/

namespace Espers

open Exec List Option Function Except

/-! ### The total of the unspent outputs -/

instance : Fintype Uint256 :=
  Fintype.ofEquiv (Fin (2 ^ 256)) ⟨BitVec.ofFin, BitVec.toFin, fun _ => rfl, fun _ => rfl⟩

/-- The value of the outputs whose slot is null. -/
def unspentSum : List CDiskTxPos → List CTxOut → ℤ
  | s :: vSpent, txout :: vout => (if s.isNull then txout.nValue else 0) + unspentSum vSpent vout
  | _, _ => 0

/-- The value of the unspent outputs of one record, whose transaction is read from disk. -/
def recordValue (rd : CDiskTxPos → Option CTransaction) (r : Option CTxIndex) : ℤ :=
  match r with
  | none => 0
  | some i =>
    match rd i.pos with
    | none => 0
    | some tx => unspentSum i.vSpent tx.vout

/-- The value of all unspent outputs of the transaction index. -/
def totalUnspent (rd : CDiskTxPos → Option CTransaction) (v : View) : ℤ :=
  ∑ h : Uint256, recordValue rd (v h)

variable {rd : CDiskTxPos → Option CTransaction} {E : Env} {v : View} {e : CBlockIndex} {pos : ℕ}
  {tx : CTransaction} {vtx : List CTransaction} {p : CDiskTxPos}

theorem unspentSum_set {l : List CDiskTxPos} {vout : List CTxOut} {n : ℕ} (h : l[n]? = some .null)
    (hp : p ≠ .null) :
    unspentSum (l.set n p) vout = unspentSum l vout - ((vout[n]?).map CTxOut.nValue).getD 0 := by
  induction l generalizing n vout with
  | nil => simp at h
  | cons s l ih =>
    cases vout with
    | nil => cases n <;> simp [unspentSum]
    | cons txout vout =>
      cases n with
      | zero =>
        obtain rfl : s = .null := by simpa using h
        simp [unspentSum, CDiskTxPos.isNull_eq_false.2 hp]
      | succ n =>
        have := @ih vout n (by simpa using h)
        simp only [set_cons_succ, unspentSum, getElem?_cons_succ]
        omega

theorem unspentSum_replicate (vout : List CTxOut) :
    unspentSum (List.replicate vout.length .null) vout = (vout.map CTxOut.nValue).sum := by
  induction vout with
  | nil => rfl
  | cons txout vout ih =>
    simp [replicate_succ, unspentSum, ih]

theorem totalUnspent_update (h : Uint256) (r : Option CTxIndex) : totalUnspent rd (update v h r) =
      totalUnspent rd v - recordValue rd (v h) + recordValue rd r := by
  have hcomp : (fun x => recordValue rd (update v h r x)) =
      update (fun x => recordValue rd (v x)) h (recordValue rd r) := by
    funext x
    by_cases hx : x = h
    · subst hx; simp
    · simp [hx]
  have hv := Finset.add_sum_erase Finset.univ (fun x => recordValue rd (v x)) (Finset.mem_univ h)
  unfold totalUnspent
  rw [hcomp, Finset.sum_update_of_mem (Finset.mem_univ h), ← Finset.erase_eq, ← hv]
  omega

@[simp] theorem outValue_markAll (os : List COutPoint) :
    outValue rd (markAll p os v) = outValue rd v := by
  funext o
  simp only [outValue, markAll]
  cases v o.hash <;> rfl

theorem totalUnspent_mark {o : COutPoint} (hs : slot v o = some .null) (hp : p ≠ .null) :
    totalUnspent rd (markAll p [o] v) = totalUnspent rd v - outValue rd v o := by
  cases hv : v o.hash with
  | none => simp [slot, hv] at hs
  | some i =>
    rw [markAll_singleton hv, totalUnspent_update, hv]
    simp only [slot, hv] at hs
    simp only [recordValue, outValue, hv, bind_some]
    cases rd i.pos with
    | none => simp
    | some t =>
      simp only [bind_some]
      rw [unspentSum_set hs hp]
      omega

theorem totalUnspent_markAll {os : List COutPoint} (hnd : os.Nodup)
    (hs : ∀ o ∈ os, slot v o = some .null) (hp : p ≠ .null) :
    totalUnspent rd (markAll p os v) = totalUnspent rd v - (os.map (outValue rd v)).sum := by
  induction os generalizing v with
  | nil => simp
  | cons o os ih =>
    rw [nodup_cons] at hnd
    have hrest : ∀ o' ∈ os, slot (markAll p [o] v) o' = some .null := by
      intro o' ho'
      have hne : o' ∉ [o] := by
        rw [mem_singleton]
        rintro rfl
        exact hnd.1 ho'
      rw [slot_markAll, if_neg hne]
      exact hs o' (mem_cons_of_mem _ ho')
    rw [markAll_cons, ih hnd.2 hrest, totalUnspent_mark (hs o mem_cons_self) hp,
      map_cons, sum_cons, outValue_markAll, sub_sub]

theorem totalUnspent_connectTx (hs : Spendable v tx) (hnd : tx.spends.Nodup)
    (hn : v (E.txHash tx) = none) (hp : p ≠ .null) (hrd : rd p = some tx) :
    totalUnspent rd (connectTx E p tx v) = totalUnspent rd v - valueIn rd v tx + tx.valueOut := by
  have hn' : markAll p tx.spends v (E.txHash tx) = none := markAll_eq_none.2 hn
  rw [connectTx, totalUnspent_update, totalUnspent_markAll hnd hs hp, hn']
  simp only [recordValue, CTxIndex.ofOutputs, hrd, unspentSum_replicate]
  rw [sub_zero]
  rfl

/-- The transactions lie on disk one after the other, the first of them at offset `pos`. -/
def Located (rd : CDiskTxPos → Option CTransaction) (e : CBlockIndex) : ℕ → List CTransaction → Prop
  | _, [] => True
  | pos, tx :: vtx => rd (e.txPos pos) = some tx ∧ Located rd e (pos + tx.getSerializeSize) vtx

/-- **Connecting the transactions of a block changes the total by what they put out less what they
take in.** -/
theorem totalUnspent_connectTxs (hs : AllSpendable E e pos vtx v) (hf : Fresh E vtx v)
    (hsane : ∀ tx ∈ vtx, TxSane tx) (hl : Located rd e pos vtx) :
    totalUnspent rd (connectTxs E e pos vtx v) =
      totalUnspent rd v - totalIn rd E e pos vtx v + totalOut vtx := by
  induction vtx generalizing pos v with
  | nil => simp [connectTxs, totalIn, totalOut]
  | cons tx vtx ih =>
    have hrest := ih hs.2 (hf.tail (e.txPos pos))
      (fun x hx => hsane x (mem_cons_of_mem _ hx)) hl.2
    have hstep := totalUnspent_connectTx hs.1 (hsane tx mem_cons_self).spends_nodup
      (hf.absent tx mem_cons_self) (e.txPos_ne_null pos) hl.1
    rw [connectTxs, hrest, hstep, totalIn, totalOut_cons]
    omega

/-! ### The supply counter -/

theorem ConnectTrace.supply {ctx : Ctx} {block : CBlock} {p : Uint256} {w w' : World}
    (c : ConnectTrace E ctx block p w w') :
    (c.e.minted c.prev c.t).nMoneySupply =
      wrap64 ((c.prev.map CBlockIndex.nMoneySupply).getD 0 + totalOut block.vtx -
        totalIn w.files.diskTx E c.e (firstTxPos c.e.nBlockPos block) block.vtx w.txdb.view) := by
  obtain ⟨hin, hout, -⟩ := c.values
  rw [← hin, ← hout]
  simp only [CBlockIndex.minted, sub64, add64]
  rw [wrap64_wrap_sub]

/-- The supply at the parent of an entry. -/
def World.parentSupply (w : World) (e : CBlockIndex) : ℤ :=
  ((e.pprev.bind fun q => w.mapBlockIndex.lookup q).map CBlockIndex.nMoneySupply).getD 0

/-- What a block with the entry `e` may mint without fees when it is connected in the state `w`: its
height, the height and the supply of the best block, and the coin age of its coinstake decide. -/
def blockSubsidy (E : Env) (ctx : Ctx) (w : World) (block : CBlock) (e : CBlockIndex) : Option ℤ :=
  (w.pindexBest.bind fun hash => w.mapBlockIndex.lookup hash).bind fun best =>
    if block.isProofOfStake then
      (getCoinAge E w ctx w.txdb e.pprev (block.vtx.getD 1 default)).toOption.map fun nCoinAge =>
        getProofOfStakeReward best.nHeight best.nMoneySupply (wrap64 nCoinAge) 0
    else some (proofOfWorkSubsidy best.nMoneySupply e.nHeight)

namespace ConnectTrace

variable {ctx : Ctx} {block : CBlock} {p : Uint256} {w w' : World}

section

variable (c : ConnectTrace E ctx block p w w')
include c

/-- The supply grows by what the block puts out less what it takes in, and that is at most the
reward. -/
theorem supply_sub (hr : wrap64 c.nReward = c.nReward) :
    sub64 (c.e.minted c.prev c.t).nMoneySupply (w.parentSupply c.e) ≤ c.nReward := by
  obtain ⟨-, -, hrange⟩ := c.values
  have hin := hrange.valueIn
  have hout := hrange.valueOut
  have hps : (c.prev.map CBlockIndex.nMoneySupply).getD 0 = w.parentSupply c.e := by
    rw [c.prev_eq]; rfl
  have hdiff : sub64 (c.e.minted c.prev c.t).nMoneySupply (w.parentSupply c.e) =
      c.t.nValueOut - c.t.nValueIn := by
    simp only [CBlockIndex.minted, hps, sub64, add64]
    rw [wrap64_wrap_sub, sub_sub, wrap64_wrap_sub]
    have hcancel : w.parentSupply c.e + c.t.nValueOut - (c.t.nValueIn + w.parentSupply c.e) =
        c.t.nValueOut - c.t.nValueIn := by omega
    rw [hcancel]
    exact wrap64_of_range (by omega) (by omega)
  rw [hdiff]
  exact sub_le_of_le_add64 hin.1 hin.2 hout.1 hr c.balance

theorem reward_pow (hpos : block.isProofOfStake = false) : wrap64 c.nReward = c.nReward ∧
      c.nReward ≤ proofOfWorkSubsidy c.best.nMoneySupply c.e.nHeight := by
  have h := c.reward
  have hrange := c.values.2.2
  have hin := hrange.valueIn
  have hfee := hrange.fees
  simp only [checkReward, hpos, Bool.false_eq_true, ↓reduceIte, except_bind_eq_ok, rejectIf_eq_ok,
    exists_const, ok.injEq] at h
  rw [← h.2]
  exact ⟨by simp [sub64], calculatedCoinbaseReward_sub_fees hfee.1 (by omega)⟩

theorem reward_pos (hpos : block.isProofOfStake = true) : wrap64 c.nReward = c.nReward ∧ ∃ nCoinAge,
      getCoinAge E w ctx w.txdb c.e.pprev (block.vtx.getD 1 default) = .ok nCoinAge ∧
      c.nReward = getProofOfStakeReward c.best.nHeight c.best.nMoneySupply (wrap64 nCoinAge) 0 := by
  have h := c.reward
  have hrange := c.values.2.2
  have hin := hrange.valueIn
  have hfee := hrange.fees
  simp only [checkReward, hpos, ↓reduceIte, except_bind_eq_ok, except_mapError_eq_ok,
    rejectIf_eq_ok, exists_const, ok.injEq] at h
  obtain ⟨nCoinAge, hage, -, h⟩ := h
  rw [c.mid_txdb, getCoinAge_congr ctx w.txdb _ _ c.mid_files c.mid_index] at hage
  refine ⟨by rw [← h]; simp [sub64], nCoinAge, hage, ?_⟩
  rw [← h]
  exact getProofOfStakeReward_sub_fees hfee.1 (by omega)

/-- What a connected block puts out is at most what it takes in and its subsidy. -/
theorem minted_le : ∃ subsidy, blockSubsidy E ctx w block c.e = some subsidy ∧ totalOut block.vtx ≤
      totalIn w.files.diskTx E c.e (firstTxPos c.e.nBlockPos block) block.vtx
      w.txdb.view + subsidy := by
  obtain ⟨hin, hout, hrange⟩ := c.values
  have hi := hrange.valueIn
  have ho := hrange.valueOut
  have hbal := c.balance
  cases hpos : block.isProofOfStake with
  | false =>
    obtain ⟨hw, hle⟩ := c.reward_pow hpos
    have hsub := sub_le_of_le_add64 hi.1 hi.2 ho.1 hw hbal
    refine ⟨proofOfWorkSubsidy c.best.nMoneySupply c.e.nHeight, ?_, by omega⟩
    rw [blockSubsidy, c.best_eq, bind_some, if_neg (by simp [hpos])]
  | true =>
    obtain ⟨hw, nCoinAge, hage, heq⟩ := c.reward_pos hpos
    have hsub := sub_le_of_le_add64 hi.1 hi.2 ho.1 hw hbal
    refine ⟨c.nReward, ?_, by omega⟩
    rw [blockSubsidy, c.best_eq, bind_some, if_pos hpos, hage, heq]
    rfl

end

end ConnectTrace

end Espers
