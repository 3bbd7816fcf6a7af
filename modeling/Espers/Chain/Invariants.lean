import Espers.Chain.Simfork

/-!
# What holds in every state of a run

* `moneySupply_eq_totalUnspent` : the supply counter is the total of the unspent outputs.
* `no_double_spend` : on the path to the best block no output is consumed twice.
* `bestChain_coherent` : the best-chain record, the links and `FindBlockByHeight` agree.
-/

namespace Espers

open Exec List Set BlockMap Forest

variable {E : Env} {ctx : Ctx} {g p q tip hash : Uint256} {w w' w1 : World} {e d : CBlockIndex}
  {block : CBlock}

/-- The committed transaction index. -/
def CTxDB.committed (txdb : CTxDB) : View := fun hash => txdb.pdb.lookup (DbKey.tx hash)

theorem CTxDB.view_of_noBatch {txdb : CTxDB} (h : txdb.activeBatch = none) :
    txdb.view = txdb.committed := by
  funext hash
  exact Store.Db.read_of_noBatch h _

/-- The block an entry points to. -/
def World.blockAt (w : World) (p : Uint256) : Option CBlock :=
  (w.mapBlockIndex.lookup p).bind fun e => w.files.readBlock e.nFile e.nBlockPos

/-- The entries from `tip` down to genesis, which is left out, and their blocks. -/
structure PathTo (w : World) (g tip : Uint256) (ps : List Uint256) (bs : List CBlock) : Prop where
  down : Down (parent w.mapBlockIndex) tip ps g
  blocks : List.Forall₂ (fun p b => w.blockAt p = some b) ps bs

theorem Chained.pathTo {l : List CBlock} {v : View}
    (h : Chained E w.mapBlockIndex w.files g p l v) : ∃ ps, PathTo w g p ps l := by
  induction h with
  | genesis => exact ⟨[], .nil _, .nil⟩
  | @block p q e b l v _ hc ih =>
    obtain ⟨ps, hps⟩ := ih
    refine ⟨p :: ps, .cons (parent_eq_some.2 ⟨e, hc.entry, hc.prev⟩) hps.down, .cons ?_ hps.blocks⟩
    rw [World.blockAt, hc.entry]
    exact hc.stored.read

/-- **The supply counter is the total of the unspent outputs.**  In every state of a run in which no
postponed block fails to connect, the counter of the best block is the value of the outputs of the
transaction index whose slot is null, in the 64-bit arithmetic of the counter; it is that value
itself while the value fits. -/
theorem moneySupply_eq_totalUnspent {genesis : CBlock} (h : GoodRun E genesis w)
    (hnc : NoCollision E w.files.txs) :
    ∃ tip e, w.pindexBest = some tip ∧ w.mapBlockIndex.lookup tip = some e ∧
      e.nMoneySupply = wrap64 (totalUnspent w.files.diskTx w.txdb.committed) ∧
      (totalUnspent w.files.diskTx w.txdb.committed < 9223372036854775808 →
        e.nMoneySupply = totalUnspent w.files.diskTx w.txdb.committed) := by
  obtain ⟨-, tip, hi⟩ := h.inv hnc
  obtain ⟨l, hl⟩ := hi.reads
  rw [CTxDB.view_of_noBatch hi.batch] at hl
  obtain ⟨e, he, hs⟩ := hl.supply
  refine ⟨tip, e, hi.best, he, hs, fun hlt => ?_⟩
  have h0 := hl.onDisk.totalUnspent_nonneg
  rw [hs]
  exact wrap64_of_range (by omega) hlt

open Simnet

/-- A chain of 400 blocks on the simulated network. -/
theorem moneySupply_mainChain :
    ∃ w, GoodRun env (Shape.block ⟨0, 1⟩ 0) w ∧ NoCollision env w.files.txs ∧
      w.pindexBest = some (Simnet.hash 800) ∧
      ∃ tip e, w.pindexBest = some tip ∧ w.mapBlockIndex.lookup tip = some e ∧
        e.nMoneySupply = wrap64 (totalUnspent w.files.diskTx w.txdb.committed) ∧
        (totalUnspent w.files.diskTx w.txdb.committed < 9223372036854775808 →
          e.nMoneySupply = totalUnspent w.files.diskTx w.txdb.committed) := by
  obtain ⟨w, hrun, hr, hsim⟩ := exists_mainChain (s := ⟨0, 1⟩) rfl 400 (by decide)
  have hnc := noCollision hsim.blocks
  exact ⟨w, hrun, hnc, hr.best, moneySupply_eq_totalUnspent hrun hnc⟩

/-- The shape of the network in the runs that go wrong: the side branch leaves the main chain below
its last block, and its block at height 5002 cannot be connected. -/
def swallowing : Shape := ⟨4999, 10005⟩

theorem bad_mem : 10005 ∈ insert swallowing.bad (forkCodes swallowing 5000 5001) := mem_insert _ _

theorem tip_mem : 10003 ∈ insert swallowing.bad (forkCodes swallowing 5000 5001) :=
  mem_insert_of_mem _ (side_mem (k := 5001) (by decide) le_rfl)

/-- **Without the condition the counter is wrong**: the best block is one that was never connected,
and its counter is 0, with outputs to spend in the index. -/
theorem moneySupply_swallowed : ∃ w e, Run env (swallowing.block 0) (fun _ _ => True) w ∧
      NoCollision env w.files.txs ∧ w.pindexBest = some (Simnet.hash 10005) ∧
      w.mapBlockIndex.lookup (Simnet.hash 10005) = some e ∧ e.nMoneySupply = 0 ∧
      0 < totalUnspent w.files.diskTx w.txdb.committed ∧
      e.nMoneySupply ≠ wrap64 (totalUnspent w.files.diskTx w.txdb.committed) := by
  obtain ⟨w, hrun, hsw, hsim, e, he, hs⟩ := exists_swallowed (s := swallowing) (N := 5000)
    (by decide) (by decide) (by decide) (by decide) rfl
  obtain ⟨l, hl⟩ := hsw.reads
  rw [CTxDB.view_of_noBatch hsw.batch] at hl
  have hpos := hsim.total_pos hsw.tree hl tip_mem (by decide) (by decide)
  have hle := (hsim.path hsw.tree hl rfl tip_mem (by decide)).2
  refine ⟨w, e, hrun, noCollision hsim.blocks, hsw.best, he, hs, hpos, ?_⟩
  rw [hs, wrap64_of_range (by omega) (by omega)]
  exact hpos.ne

theorem ledger_append (l l' : List CBlock) : ledger (l ++ l') = ledger l ++ ledger l' :=
  flatMap_append

/-- **No double spend.**  In every state of a run in which no postponed block fails to connect, the
inputs on the path from genesis to the best block consume no outpoint twice, and each of them
consumes an output of an earlier transaction of the path. -/
theorem no_double_spend {genesis : CBlock} (h : GoodRun E genesis w)
    (hnc : NoCollision E w.files.txs) :
    ∃ tip ps bs, w.pindexBest = some tip ∧ PathTo w (genesis.getHash E) tip ps bs ∧
      (Ledger.spent CTransaction.spends (ledger (bs ++ [genesis]))).Nodup ∧
      ∀ later tx earlier, ledger (bs ++ [genesis]) = later ++ tx :: earlier →
        ∀ o ∈ tx.spends, ∃ t ∈ earlier, Makes E t o := by
  obtain ⟨hg, tip, hi⟩ := h.inv hnc
  obtain ⟨bs, hl⟩ := hi.reads
  obtain ⟨ps, hps⟩ := hl.pathTo
  have hwf := (hl.tracks hi.tree (hnc.subset hl.mem_files)).wellFormed
  obtain ⟨cb, hv, hcb⟩ := hg.coinbase
  have hled : ledger (bs ++ [genesis]) = ledger bs ++ [cb] := by
    simp [ledger, hv]
  have hsp : cb.spends = [] := by simp [CTransaction.spends, hcb]
  refine ⟨tip, ps, bs, hi.best, hps, ?_, fun later tx earlier heq o ho => ?_⟩
  · have hspent : Ledger.spent CTransaction.spends (ledger bs ++ [cb]) =
        Ledger.spent CTransaction.spends (ledger bs) := by
      simp [Ledger.spent, hsp]
    rw [hled, hspent]
    exact hwf.spent_nodup
  · rw [hled] at heq
    rcases eq_nil_or_concat earlier with rfl | ⟨init, last, rfl⟩
    · obtain ⟨-, hcbtx⟩ := append_inj' heq rfl
      rw [← head_eq_of_cons_eq hcbtx, hsp] at ho
      cases ho
    · rw [concat_eq_append, ← cons_append, ← append_assoc] at heq
      obtain ⟨hL, -⟩ := append_inj' heq rfl
      rw [hL] at hwf
      obtain ⟨t, ht, hm⟩ := hwf.earlier ho
      exact ⟨t, by simp [ht], hm⟩

theorem no_double_spend_mainChain :
    ∃ w, GoodRun env (Shape.block ⟨0, 1⟩ 0) w ∧ NoCollision env w.files.txs ∧
      ∃ tip ps bs, w.pindexBest = some tip ∧ PathTo w (Simnet.hash 0) tip ps bs ∧
        (Ledger.spent CTransaction.spends (ledger (bs ++ [Shape.block ⟨0, 1⟩ 0]))).Nodup ∧
        ∀ later tx earlier, ledger (bs ++ [Shape.block ⟨0, 1⟩ 0]) = later ++ tx :: earlier →
            ∀ o ∈ tx.spends, ∃ t ∈ earlier, Makes env t o := by
  obtain ⟨w, hrun, hr, hsim⟩ := exists_mainChain (s := ⟨0, 1⟩) rfl 400 (by decide)
  have hnc := noCollision hsim.blocks
  exact ⟨w, hrun, hnc, no_double_spend hrun hnc⟩

/-- **Without the condition an output is consumed that nobody has made**: the last transaction on
the path to the best block consumes an outpoint that no earlier transaction makes. -/
theorem double_spend_swallowed :
    ∃ w ps bs tx earlier o, Run env (swallowing.block 0) (fun _ _ => True) w ∧
      NoCollision env w.files.txs ∧ w.pindexBest = some (Simnet.hash 10005) ∧
      PathTo w (Simnet.hash 0) (Simnet.hash 10005) ps bs ∧
      ledger (bs ++ [swallowing.block 0]) = tx :: earlier ∧ o ∈ tx.spends ∧
      ∀ t ∈ earlier, ¬ Makes env t o := by
  obtain ⟨w, hrun, hsw, hsim, e, he, hs⟩ := exists_swallowed (s := swallowing) (N := 5000)
    (by decide) (by decide) (by decide) (by decide) rfl
  obtain ⟨l, hl⟩ := hsw.reads
  obtain ⟨ps, hps⟩ := hl.pathTo
  have hpath : PathTo w (hash 0) (hash 10005) (hash 10005 :: ps)
      (swallowing.block 10005 :: l) := by
    refine ⟨.cons (hsim.parent bad_mem (by decide)) hps.down, .cons ?_ hps.blocks⟩
    obtain ⟨d, hd, hprev⟩ := parent_eq_some.1 (hsim.parent bad_mem (by decide))
    obtain ⟨b, hst⟩ := hsw.stored _ d _ hd hprev
    rw [World.blockAt, hd, Option.bind_some, hst.read, hsim.block_eq (by decide) hst]
  refine ⟨w, _, _, strayTx, coinbase 10005 :: (ledger l ++ [coinbase 0]),
    ⟨BitVec.ofNat 256 (2 ^ 255), 0⟩, hrun, noCollision hsim.blocks, hsw.best, hpath, ?_,
    mem_singleton.2 rfl, fun t ht hm => ?_⟩
  · rw [cons_append, ledger_cons, ledger_append]
    rfl
  · -- the transactions before it are coinbases
    have hcb : ∃ c < codes, t = coinbase c := by
      rcases mem_cons.1 ht with rfl | ht
      · exact ⟨10005, by decide, rfl⟩
      rcases mem_append.1 ht with ht | ht
      · obtain ⟨c, hc, -, rfl⟩ := (hsim.path hsw.tree hl rfl tip_mem (by decide)).1 t ht
        exact ⟨c, hc, rfl⟩
      · exact ⟨0, by decide, mem_singleton.1 ht⟩
    obtain ⟨c, hc, rfl⟩ := hcb
    exact (stray_ne (c := c)).resolve_right (not_le.2 hc) hm.1

/-- **The best chain is coherent.**  In every state of a run in which no postponed block fails to
connect, the best-chain record of the database is the hash in memory; the committed transaction
index is what `ConnectBlock` has made of the blocks on the path to the best block, one after the
other; `IsInMainChain` holds of the best block and its ancestors only; and `FindBlockByHeight` finds
the ancestor at every height up to that of the best block. -/
theorem bestChain_coherent {genesis : CBlock} (h : GoodRun E genesis w)
    (hnc : NoCollision E w.files.txs) :
    ∃ tip bs, w.pindexBest = some tip ∧ w.hashBestChain = tip ∧
      w.txdb.pdb.lookup .hashBestChain = some w.hashBestChain ∧
      Chained E w.mapBlockIndex w.files (genesis.getHash E) tip bs w.txdb.committed ∧
      (∀ p, w.isInMainChain p = true ↔ Anc (parent w.mapBlockIndex) tip p) ∧
      ∀ nHeight : ℤ, 0 ≤ nHeight → nHeight ≤ w.nBestHeight →
        ∃ p w', findBlockByHeight nHeight w = .ok p w' ∧ Anc (parent w.mapBlockIndex) tip p ∧
          (height w.mapBlockIndex p : ℤ) = nHeight := by
  obtain ⟨-, tip, hi⟩ := h.inv hnc
  obtain ⟨bs, hl⟩ := hi.reads
  have htip := hl.lookup_isSome
  rw [CTxDB.view_of_noBatch hi.batch] at hl
  refine ⟨tip, bs, hi.best, hi.hashBestChain, ?_, hl, fun p => isInMainChain_iff hi.links hi.best,
    fun nHeight h0 hle => ?_⟩
  · rw [hi.hashBestChain]
    exact hi.hashBest
  · rw [hi.bestHeight] at hle
    obtain ⟨p, hp, hanc, hheight⟩ :=
      findByHeight_ok hi.tree hi.links hi.best htip hi.genesis hi.cache h0 hle
    refine ⟨p, { w with pblockindexFBBHLast := some p }, ?_, hanc, hheight⟩
    unfold findBlockByHeight
    rw [bind_apply]
    simp only [get_apply, hp]
    rfl

theorem bestChain_mainChain :
    ∃ w, GoodRun env (Shape.block ⟨0, 1⟩ 0) w ∧ NoCollision env w.files.txs ∧
      ∃ tip bs, w.pindexBest = some tip ∧ w.hashBestChain = tip ∧
        w.txdb.pdb.lookup .hashBestChain = some w.hashBestChain ∧
        Chained env w.mapBlockIndex w.files (Simnet.hash 0) tip bs w.txdb.committed ∧
        (∀ p, w.isInMainChain p = true ↔ Anc (parent w.mapBlockIndex) tip p) ∧
        ∀ nHeight : ℤ, 0 ≤ nHeight → nHeight ≤ w.nBestHeight →
          ∃ p w', findBlockByHeight nHeight w = .ok p w' ∧ Anc (parent w.mapBlockIndex) tip p ∧
            (height w.mapBlockIndex p : ℤ) = nHeight := by
  obtain ⟨w, hrun, hr, hsim⟩ := exists_mainChain (s := ⟨0, 1⟩) rfl 400 (by decide)
  have hnc := noCollision hsim.blocks
  exact ⟨w, hrun, hnc, bestChain_coherent hrun hnc⟩

/-- **Without the condition the best chain falls apart**: the best-chain record names the parent of
the best block, the committed index has no record of the best block's coinbase, and the parent is an
ancestor of the best block that `IsInMainChain` denies. -/
theorem bestChain_swallowed : ∃ w, Run env (swallowing.block 0) (fun _ _ => True) w ∧
      NoCollision env w.files.txs ∧ w.pindexBest = some (Simnet.hash 10005) ∧
      w.hashBestChain = Simnet.hash 10005 ∧
      w.txdb.pdb.lookup .hashBestChain = some (Simnet.hash 10003) ∧
      w.txdb.committed (env.txHash (coinbase 10005)) = none ∧
      Anc (parent w.mapBlockIndex) (Simnet.hash 10005) (Simnet.hash 10003) ∧
      w.isInMainChain (Simnet.hash 10003) = false := by
  obtain ⟨w, hrun, hsw, hsim, e, he, hs⟩ := exists_swallowed (s := swallowing) (N := 5000)
    (by decide) (by decide) (by decide) (by decide) rfl
  have hpar : parent w.mapBlockIndex (Simnet.hash 10005) = some (Simnet.hash 10003) :=
    hsim.parent bad_mem (by decide)
  refine ⟨w, hrun, noCollision hsim.blocks, hsw.best, hsw.hashBestChain, hsw.hashBest, ?_,
    .of_parent hpar, ?_⟩
  · rw [← CTxDB.view_of_noBatch hsw.batch]
    refine hsim.unknown hsw.toIndexed hsw.reads tip_mem (by decide) fun c hc hle heq => ?_
    have := (hash_inj hc (by decide)).1 heq
    omega
  · refine hsw.isInMainChain fun heq => ?_
    exact absurd ((hash_inj (by decide) (by decide)).1 heq) (by decide)

end Espers
