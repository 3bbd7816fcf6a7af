import Espers.Chain.Supply
import Mathlib.Algebra.Order.BigOperators.Group.Finset

/-!
# The block files grow

Blocks are appended to the files and never changed.  What has been written is read back
(`writeToDisk_readBlock`, `writeToDisk_located`), and later writes do not change what is read
(`writeToDisk_grows`).
-/

namespace Espers

open List Option Function

variable {fs fs' : BlockFiles} {block : CBlock} {e e' : CBlockIndex} {pos n : ℕ}
  {rd rd' : CDiskTxPos → Option CTransaction} {tx : CTransaction} {vtx : List CTransaction}

/-- Whatever can be read from `fs` is read from `fs'` too. -/
structure BlockFiles.Grows (fs fs' : BlockFiles) : Prop where
  readBlock : ∀ f n block, fs.readBlock f n = some block → fs'.readBlock f n = some block
  diskTx : ∀ p tx, fs.diskTx p = some tx → fs'.diskTx p = some tx

theorem BlockFiles.Grows.refl (fs : BlockFiles) : fs.Grows fs := ⟨fun _ _ _ h => h, fun _ _ h => h⟩

/-! ### Offsets -/

theorem txAt_of_lt (h : n < pos) : txAt n pos vtx = none := by
  induction vtx generalizing pos with
  | nil => rfl
  | cons tx vtx ih =>
    rw [txAt, if_neg (by omega)]
    exact ih (by omega)

theorem diskTx_inMemory (fs : BlockFiles) : fs.diskTx .inMemory = none := by
  unfold BlockFiles.diskTx BlockFiles.readTx
  rw [findSome?_eq_none_iff]
  intro sb _
  split_ifs
  · -- the first transaction of a block comes after its header
    refine txAt_of_lt ?_
    have hhead : CDiskTxPos.inMemory.nTxPos < headerSize := by decide
    unfold firstTxPos
    omega
  · rfl

theorem le_of_txAt (h : txAt n pos vtx = some tx) :
    n ≤ pos + (vtx.map CTransaction.getSerializeSize).sum := by
  induction vtx generalizing pos with
  | nil => cases h
  | cons t vtx ih =>
    rw [txAt] at h
    split_ifs at h with hn
    · omega
    · have := ih h
      simp only [map_cons, sum_cons]
      omega

theorem BlockFiles.le_ftell {sb : StoredBlock} (h : sb ∈ fs.blocks) :
    sb.nBlockPos + sb.block.getSerializeSize ≤ fs.ftell sb.nFile := by
  unfold BlockFiles.ftell
  generalize fs.blocks = l at h
  induction l with
  | nil => cases h
  | cons s l ih =>
    rw [foldr_cons]
    rcases mem_cons.1 h with rfl | h
    · rw [if_pos rfl]
      exact le_max_right _ _
    · have := ih h
      split_ifs with hs
      · exact this.trans (le_max_left _ _)
      · exact this

/-! ### Reading what was written -/

theorem readBlock_eq_some {f : ℕ} (h : fs.readBlock f n = some block) :
    ∃ sb ∈ fs.blocks, sb.nFile = f ∧ sb.nBlockPos = n ∧ sb.block = block := by
  obtain ⟨sb, hsb, rfl⟩ := map_eq_some_iff.1 h
  have hp := find?_some hsb
  simp only [decide_eq_true_eq] at hp
  exact ⟨sb, mem_of_find?_eq_some hsb, hp.1, hp.2, rfl⟩

/-- **What has been written before is still read.** -/
theorem writeToDisk_grows (fs : BlockFiles) (block : CBlock) :
    fs.Grows (fs.writeToDisk block).1 := by
  refine ⟨fun f n b h => ?_, fun p tx h => ?_⟩
  · obtain ⟨sb, hmem, hf, hn, -⟩ := readBlock_eq_some h
    have hle := BlockFiles.le_ftell hmem
    simp only [BlockFiles.writeToDisk, BlockFiles.readBlock, find?_cons]
    split
    · rename_i hp
      simp only [decide_eq_true_eq] at hp
      rw [hf, ← hp.1] at hle
      omega
    · exact h
  · obtain ⟨sb, hmem, hsb⟩ := exists_of_findSome?_eq_some h
    split_ifs at hsb with hf
    have hle := BlockFiles.le_ftell hmem
    have hend := le_of_txAt hsb
    simp only [BlockFiles.writeToDisk, BlockFiles.diskTx, BlockFiles.readTx, findSome?_cons]
    have hnew : (if fs.appendBlockFile (fs.blocks.length + 1) fs.nCurrentBlockFile = p.nFile then
        txAt p.nTxPos (firstTxPos (fs.ftell
          (fs.appendBlockFile (fs.blocks.length + 1) fs.nCurrentBlockFile) + 8) block) block.vtx
        else none) = none := by
      split_ifs with hp
      · apply txAt_of_lt
        rw [hf] at hle
        rw [hp]
        simp only [firstTxPos, CBlock.getSerializeSize] at hle hend ⊢
        omega
      · rfl
    rw [hnew]
    exact h

theorem writeToDisk_readBlock (fs : BlockFiles) (block : CBlock) :
    (fs.writeToDisk block).1.readBlock (fs.writeToDisk block).2.1 (fs.writeToDisk block).2.2 =
      some block := by
  simp [BlockFiles.writeToDisk, BlockFiles.readBlock]

theorem Located.of_txAt (h : ∀ n tx, txAt n pos vtx = some tx → rd (e.txPos n) = some tx) :
    Located rd e pos vtx := by
  induction vtx generalizing pos with
  | nil => trivial
  | cons tx vtx ih =>
    refine ⟨h pos tx (by simp [txAt]), ih fun n t ht => h n t ?_⟩
    have hpos := tx.getSerializeSize_pos
    have hne : pos ≠ n := by
      rintro rfl
      rw [txAt_of_lt (by omega)] at ht
      cases ht
    rw [txAt, if_neg hne]
    exact ht

theorem writeToDisk_located (fs : BlockFiles) (block : CBlock)
    (hf : e.nFile = (fs.writeToDisk block).2.1) (hp : e.nBlockPos = (fs.writeToDisk block).2.2) :
    Located (fs.writeToDisk block).1.diskTx e (firstTxPos e.nBlockPos block) block.vtx := by
  refine Located.of_txAt fun n tx h => ?_
  rw [hp] at h
  simp only [BlockFiles.writeToDisk] at hf h
  simp only [BlockFiles.writeToDisk, BlockFiles.diskTx, BlockFiles.readTx, findSome?_cons,
    CBlockIndex.txPos, hf, ↓reduceIte, h]

theorem Located.mono (h : Located rd e pos vtx)
    (hrd : ∀ p tx, rd p = some tx → rd' p = some tx) : Located rd' e pos vtx := by
  induction vtx generalizing pos with
  | nil => trivial
  | cons tx vtx ih => exact ⟨hrd _ _ h.1, ih h.2⟩

theorem CBlockIndex.txPos_congr (hf : e'.nFile = e.nFile) (hp : e'.nBlockPos = e.nBlockPos) :
    e'.txPos = e.txPos := by
  funext n
  simp only [CBlockIndex.txPos, hf, hp]

theorem connectTxs_congr {E : Env} (h : e'.txPos = e.txPos) (v : View) :
    connectTxs E e' pos vtx v = connectTxs E e pos vtx v := by
  induction vtx generalizing pos v with
  | nil => rfl
  | cons tx vtx ih => rw [connectTxs, connectTxs, ih, h]

variable {v : View}

theorem AllSpendable.congr {E : Env} (h : e'.txPos = e.txPos)
    (hs : AllSpendable E e pos vtx v) : AllSpendable E e' pos vtx v := by
  induction vtx generalizing pos v with
  | nil => trivial
  | cons tx vtx ih => exact ⟨hs.1, ih (by rw [h]; exact hs.2)⟩

theorem Located.congr (h : e'.txPos = e.txPos) (hl : Located rd e pos vtx) :
    Located rd e' pos vtx := by
  induction vtx generalizing pos with
  | nil => trivial
  | cons tx vtx ih => exact ⟨by rw [h]; exact hl.1, ih hl.2⟩

/-! ### Records that point to transactions on disk -/

variable {E : Env}

/-- Every record of the view points to the transaction it is filed under, which can be read and is
well formed. -/
def OnDisk (E : Env) (rd : CDiskTxPos → Option CTransaction) (v : View) : Prop :=
  ∀ h i, v h = some i → ∃ tx, rd i.pos = some tx ∧ E.txHash tx = h ∧ TxSane tx

theorem OnDisk.connectTx {p : CDiskTxPos} (h : OnDisk E rd v)
    (hp : rd p = some tx) (hs : TxSane tx) : OnDisk E rd (connectTx E p tx v) := by
  intro k i hi
  by_cases hk : k = E.txHash tx
  · subst hk
    simp only [Espers.connectTx, update_self, some.injEq] at hi
    subst hi
    exact ⟨tx, hp, rfl, hs⟩
  · simp only [Espers.connectTx, update_of_ne hk, markAll, map_eq_some_iff] at hi
    obtain ⟨j, hj, rfl⟩ := hi
    exact h k j hj

theorem OnDisk.connectTxs (h : OnDisk E rd v) (hl : Located rd e pos vtx)
    (hs : ∀ tx ∈ vtx, TxSane tx) : OnDisk E rd (connectTxs E e pos vtx v) := by
  induction vtx generalizing pos v with
  | nil => exact h
  | cons tx vtx ih =>
    exact ih (h.connectTx hl.1 (hs tx mem_cons_self)) hl.2
      fun x hx => hs x (mem_cons_of_mem _ hx)

theorem OnDisk.totalUnspent_eq (h : OnDisk E rd v)
    (hrd : ∀ p tx, rd p = some tx → rd' p = some tx) : totalUnspent rd' v = totalUnspent rd v := by
  refine Finset.sum_congr rfl fun k _ => ?_
  cases hk : v k with
  | none => rfl
  | some i =>
    obtain ⟨tx, htx, -⟩ := h k i hk
    simp [recordValue, htx, hrd _ _ htx]

theorem unspentSum_nonneg {l : List CDiskTxPos} {vout : List CTxOut}
    (h : ∀ txout ∈ vout, 0 ≤ txout.nValue) : 0 ≤ unspentSum l vout := by
  induction vout generalizing l with
  | nil => cases l <;> simp [unspentSum]
  | cons txout vout ih =>
    cases l with
    | nil => simp [unspentSum]
    | cons s l =>
      have h1 := ih (l := l) fun x hx => h x (mem_cons_of_mem _ hx)
      have h2 := h txout mem_cons_self
      rw [unspentSum]
      split_ifs <;> omega

theorem OnDisk.recordValue_nonneg (h : OnDisk E rd v) (k : Uint256) : 0 ≤ recordValue rd (v k) := by
  cases hk : v k with
  | none => exact le_rfl
  | some i =>
    obtain ⟨tx, htx, -, hs⟩ := h k i hk
    simp only [recordValue, htx]
    exact unspentSum_nonneg fun txout hx => (hs.out_range txout hx).1

theorem OnDisk.totalUnspent_nonneg (h : OnDisk E rd v) : 0 ≤ totalUnspent rd v :=
  Finset.sum_nonneg fun k _ => h.recordValue_nonneg k

theorem OnDisk.recordValue_le (h : OnDisk E rd v) (k : Uint256) :
    recordValue rd (v k) ≤ totalUnspent rd v :=
  Finset.single_le_sum (fun x _ => h.recordValue_nonneg x) (Finset.mem_univ k)

end Espers
