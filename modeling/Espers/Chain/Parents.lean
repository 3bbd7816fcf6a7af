import Espers.Chain.MempoolIndex
import Espers.Chain.TxFactor

/-!
# The parents that are fetched

`FetchInputs` takes the record of a parent from the database or from the pool of changes of the
block, and the parent itself from the memory pool or from disk.  A parent that was found in the
memory pool is read from disk again when it has a record.

* `fetchInput_hash` : a parent that is fetched has the hash it was asked for.
* `fetchInput_inMemory` : a parent with the position of transactions in memory is never fetched for
  a block.
* `fetchInputs_parents_iff` : **the transactions whose parents are fetched right**.
-/

namespace Espers

open Exec Simnet Option AList List Except

variable {E : Env} {w : World} {ctx : Ctx} {txdb : CTxDB} {q : MapTxIndex} {fBlock : Bool}
  {tx : CTransaction} {hash : Uint256}

/-! ### Records under their hashes -/

/-- Every record points to the transaction it is filed under. -/
def FiledView (E : Env) (rd : CDiskTxPos → Option CTransaction) (v : View) : Prop :=
  ∀ h i tx, v h = some i → rd i.pos = some tx → E.txHash tx = h

/-- What `FetchInputs` reads is filed under hashes: the records of the database and of the test
pool, and the transactions of the memory pool. -/
structure FiledByHash (E : Env) (w : World) (ctx : Ctx) (txdb : CTxDB) (mapTxPool : MapTxIndex) :
    Prop where
  record : FiledView E (w.readTxFromDisk ctx) (CTxDB.view txdb)
  queued : FiledView E (w.readTxFromDisk ctx) fun h => mapTxPool.lookup h
  pool : ∀ h tx, w.mempool.mapTx.lookup h = some tx → E.txHash tx = h

theorem OnDisk.filed {v : View} (h : OnDisk E w.files.diskTx v) :
    FiledView E (w.readTxFromDisk ctx) v := by
  intro k i tx hi htx
  obtain ⟨t, ht, hhash, -⟩ := h k i hi
  obtain rfl := some.inj (ht.symm.trans (World.diskTx_of_read htx))
  exact hhash

/-- In every state of a run, with the changes of the first transactions of a block in the files. -/
theorem GoodRun.filedByHash {genesis : CBlock} {e : CBlockIndex} {pos : ℕ} {vtx : List CTransaction}
    (h : GoodRun E genesis w) (hnc : NoCollision E w.files.txs) (hpool : w.mempool.Indexed E)
    (hview : CTxDB.view txdb = w.txdb.view)
    (hq : overlay q w.txdb.view = connectTxs E e pos vtx w.txdb.view)
    (hl : Located w.files.diskTx e pos vtx) (hs : ∀ tx ∈ vtx, TxSane tx) :
    FiledByHash E w ctx txdb q := by
  obtain ⟨-, tip, hinv⟩ := h.inv hnc
  obtain ⟨l, hchain⟩ := hinv.reads
  refine ⟨hview ▸ hchain.onDisk.filed, fun k i tx hi htx => ?_, hpool.keyed⟩
  refine (hchain.onDisk.connectTxs hl hs).filed k i tx ?_ htx
  rw [← hq, overlay, show q.lookup k = some i from hi]
  rfl

/-- **A parent that is fetched has the hash it was asked for.** -/
theorem fetchInput_hash (hf : FiledByHash E w ctx txdb q) {r : CTxIndex × CTransaction}
    (h : fetchInput w ctx txdb q fBlock false hash = .ok r) : E.txHash r.2 = hash := by
  simp only [fetchInput, except_bind_eq_ok, rejectIf_eq_ok, exists_const, and_true,
    Bool.not_false, ok.injEq] at h
  obtain ⟨-, hpool, hdisk, -, rfl⟩ := h
  obtain ⟨found, hfound⟩ : ∃ found, (if (fBlock && (q.lookup hash).isSome) = true then q.lookup hash
    else txdb.readTxIndex hash) = found := ⟨_, rfl⟩
  rw [hfound] at hpool hdisk ⊢
  cases found with
  | none =>
    -- no record: the parent is that of the memory pool
    simp only [isNone_none, Bool.true_or, if_true, true_and] at hpool
    obtain ⟨t, ht⟩ := ne_none_iff_exists'.1 hpool
    simpa [ht] using hf.pool hash t ht
  | some txindex =>
    simp only [isSome_some, if_true, true_and, map_some, getD_some] at hdisk
    obtain ⟨t, ht⟩ := ne_none_iff_exists'.1 hdisk
    have hhash : E.txHash t = hash := by
      split_ifs at hfound with hmap
      · exact hf.queued hash txindex t hfound ht
      · exact hf.record hash txindex t hfound ht
    simpa [ht] using hhash

/-- **A parent with a record in memory is never fetched for a block.**  (In the source the disk read
at the position of transactions in memory fails, or yields a transaction without outputs, in which
no output index is in range; both times `FetchInputs` returns `false`.) -/
theorem fetchInput_inMemory {txindex : CTxIndex} (hq : q.lookup hash = some txindex)
    (hpos : txindex.pos = .inMemory) (r : CTxIndex × CTransaction) :
    fetchInput w ctx txdb q true false hash ≠ .ok r := by
  have hdisk : w.readTxFromDisk ctx .inMemory = none := by
    rw [World.readTxFromDisk, diskTx_inMemory, ite_self]
  intro h
  simp only [fetchInput, except_bind_eq_ok, rejectIf_eq_ok, exists_const, hq,
    isSome_some, Bool.and_self, if_true, map_some, getD_some, hpos, hdisk,
    Bool.not_false, and_self, not_true_eq_false, false_and, and_false] at h

/-! ### All parents -/

theorem fetchLoop_hash (hf : FiledByHash E w ctx txdb q) {vin : List CTxIn}
    {inputs inputs' : MapPrevTx} (hin : ∀ h r, inputs.lookup h = some r → E.txHash r.2 = h)
    (h : fetchLoop w ctx txdb q fBlock false vin inputs = .ok inputs') :
    (∀ h r, inputs'.lookup h = some r → E.txHash r.2 = h) ∧
      (∀ h, (inputs.lookup h).isSome → (inputs'.lookup h).isSome) ∧
      ∀ txin ∈ vin, (inputs'.lookup txin.prevout.hash).isSome := by
  induction vin generalizing inputs with
  | nil =>
    obtain rfl := ok.inj h
    exact ⟨hin, fun _ h => h, fun txin hin => absurd hin not_mem_nil⟩
  | cons txin vin ih =>
    rw [fetchLoop] at h
    split_ifs at h with hgot
    · obtain ⟨hall, hkeep, hcover⟩ := ih hin h
      exact ⟨hall, hkeep, forall_mem_cons.2 ⟨hkeep _ hgot, hcover⟩⟩
    · obtain ⟨r, hr, h⟩ := except_bind_eq_ok.1 h
      have hr' := fetchInput_hash hf hr
      obtain ⟨hall, hkeep, hcover⟩ := ih (fun k x hx => by
        by_cases hk : k = txin.prevout.hash
        · subst hk
          rw [lookup_insert] at hx
          rw [← some.inj hx]
          exact hr'
        · rw [lookup_insert_ne hk] at hx
          exact hin k x hx) h
      refine ⟨hall, fun k hk => hkeep k ?_, forall_mem_cons.2 ⟨hkeep _ ?_, hcover⟩⟩
      · by_cases heq : k = txin.prevout.hash
        · rw [heq, lookup_insert]
          rfl
        · rwa [lookup_insert_ne heq]
      · rw [lookup_insert]
        rfl

/-- `FetchInputs` hands back the right parents of a transaction: those it fetches have the hashes
that the inputs name, and one that is in the memory pool and has a record in memory is fetched for a
block. -/
structure RightParents (E : Env) (w : World) (ctx : Ctx) (txdb : CTxDB) (mapTxPool : MapTxIndex)
    (fBlock : Bool) (tx : CTransaction) : Prop where
  hashes : ∀ inputs, fetchInputs w ctx txdb mapTxPool fBlock false tx = .ok inputs →
    ∀ txin ∈ tx.vin, ∃ r, inputs.lookup txin.prevout.hash = some r ∧ E.txHash r.2 =
    txin.prevout.hash
  pooled : fBlock = true → ∀ txin ∈ tx.vin, ∀ txindex txPrev,
    mapTxPool.lookup txin.prevout.hash = some txindex → txindex.pos = .inMemory →
    w.mempool.mapTx.lookup txin.prevout.hash = some txPrev →
    fetchInput w ctx txdb mapTxPool fBlock false txin.prevout.hash = .ok (txindex, txPrev)

/-- A parent of the transaction is in the memory pool and has a record in memory. -/
def PooledParent (w : World) (mapTxPool : MapTxIndex) (tx : CTransaction) : Prop :=
  ∃ txin ∈ tx.vin, (w.mempool.mapTx.lookup txin.prevout.hash).isSome ∧
    (mapTxPool.lookup txin.prevout.hash).any fun txindex => txindex.pos = .inMemory

/-- **The transactions whose parents are fetched right**: all but those that are fetched for a block
and have a parent in the memory pool with a record in memory. -/
theorem fetchInputs_parents_iff (hf : FiledByHash E w ctx txdb q) (hcb : tx.isCoinBase = false) :
    RightParents E w ctx txdb q fBlock tx ↔ ¬ (fBlock = true ∧ PooledParent w q tx) := by
  constructor
  · rintro hright ⟨hblock, txin, hin, hpool, hq⟩
    obtain ⟨txPrev, htx⟩ := isSome_iff_exists.1 hpool
    obtain ⟨txindex, hindex, hpos⟩ := (any_eq_true _ _).1 hq
    have hpos' : txindex.pos = .inMemory := of_decide_eq_true hpos
    have hfetch := hright.pooled hblock txin hin txindex txPrev hindex hpos' htx
    rw [hblock] at hfetch
    exact fetchInput_inMemory hindex hpos' _ hfetch
  · intro hnone
    refine ⟨fun inputs h txin hin => ?_, fun hblock txin hin txindex txPrev hq hpos htx => ?_⟩
    · simp only [fetchInputs, hcb, Bool.false_eq_true, if_false, except_bind_eq_ok, ok.injEq] at h
      obtain ⟨r, hr, _, -, rfl⟩ := h
      obtain ⟨hall, -, hcover⟩ := fetchLoop_hash hf (fun k x hx => by
        cases hx) hr
      obtain ⟨x, hx⟩ := isSome_iff_exists.1 (hcover txin hin)
      exact ⟨x, hx, hall _ x hx⟩
    · refine absurd ⟨hblock, txin, hin, ?_, ?_⟩ hnone
      · rw [htx]
        rfl
      · rw [hq, any_some]
        exact decide_eq_true hpos

/-! ### A payment and its child -/

/-- The node of the bank, with a payment of the bank in its memory pool. -/
def paidWorld : World := { vaultWorld 100 with
  mempool := ⟨AList.insert 2 (passTx 2 1 100) ∅, ∅, 0⟩ }

/-- The test pool after the payment has been added to a block. -/
def paidPool : MapTxIndex := AList.insert 2 (.ofOutputs .inMemory 1) ∅

theorem paidWorld_filed :
    FiledByHash env paidWorld (context false false) paidWorld.txdb.fresh paidPool := by
  refine ⟨fun h i tx hi htx => ?_, fun h i tx hi htx => ?_, fun h tx hpool => ?_⟩
  · by_cases h1 : h = 1
    · subst h1
      have hrecord : CTxDB.view paidWorld.txdb.fresh 1 = some (.ofOutputs bankPos 1) := rfl
      obtain rfl := some.inj (hrecord.symm.trans hi)
      obtain rfl : bankTx 1 100 = tx := some.inj htx
      rfl
    · have hne : DbKey.tx h ≠ DbKey.tx 1 := fun heq => h1 (DbKey.tx.inj heq)
      have hnone : CTxDB.view paidWorld.txdb.fresh h = none :=
        (@Store.Db.read_of_noBatch _ _ _ paidWorld.txdb.fresh rfl (DbKey.tx h)).trans
          ((lookup_insert_ne hne).trans (lookup_empty _))
      cases hnone.symm.trans hi
  · by_cases h2 : h = 2
    · subst h2
      obtain rfl := some.inj ((lookup_insert _).symm.trans hi)
      cases htx
    · have hnone : paidPool.lookup h = none :=
        (lookup_insert_ne h2).trans (lookup_empty _)
      cases hnone.symm.trans hi
  · by_cases h2 : h = 2
    · subst h2
      obtain rfl := some.inj ((lookup_insert _).symm.trans hpool)
      rfl
    · have hnone : paidWorld.mempool.mapTx.lookup h = none :=
        (lookup_insert_ne h2).trans (lookup_empty _)
      rw [hnone] at hpool
      cases hpool

/-- **The child of a payment in the block is not fetched**, although the payment is in the memory
pool. -/
theorem parents_not_fetched :
    ¬ ∀ (E : Env) (w : World) (ctx : Ctx) (txdb : CTxDB) (mapTxPool : MapTxIndex) (fBlock : Bool)
      (tx : CTransaction), FiledByHash E w ctx txdb mapTxPool → tx.isCoinBase = false →
      RightParents E w ctx txdb mapTxPool fBlock tx := by
  intro hall
  have hright := hall env paidWorld (context false false) paidWorld.txdb.fresh paidPool true
    (passTx 3 2 100) paidWorld_filed rfl
  have hfetch := hright.pooled rfl _ mem_cons_self (.ofOutputs .inMemory 1)
    (passTx 2 1 100) rfl rfl rfl
  exact fetchInput_inMemory rfl rfl _ hfetch

/-- The payment itself is fetched right. -/
theorem parents_fetched : RightParents env paidWorld (context false false)
    paidWorld.txdb.fresh paidPool true (passTx 2 1 100) := by
  refine (fetchInputs_parents_iff paidWorld_filed rfl).2 ?_
  rintro ⟨-, txin, hin, hpool, -⟩
  obtain rfl := mem_singleton.1 hin
  cases hpool

end Espers
