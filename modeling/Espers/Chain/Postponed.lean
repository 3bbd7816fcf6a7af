import Espers.Chain.Growth

/-!
# A postponed block that does not connect

When a branch is several blocks ahead, `SetBestChain` reorganises to the first block with more trust
and connects the others afterwards.  If one of these is refused, the loop ends, but the last block
of the branch still becomes the best block.

* `connectBlock_missing` : a block that spends an output nobody has made is refused.
* `setBestChain_swallows` : **the best block is then one that was never connected**: the pointers in
  memory name it, the best-chain record names the block the reorganisation ended at.
-/

namespace Espers

open Exec AList BlockMap

variable {E : Env} {ctx : Ctx} {g p q tip hash : Uint256} {w w' w1 w2 : World} {e d : CBlockIndex}
  {block : CBlock}

/-! ### A block that is refused -/

theorem fetchInputs_missing (ctx : Ctx) {tx : CTransaction} {txin : CTxIn} {vin : List CTxIn}
    {m : MapTxIndex} (hcb : tx.isCoinBase = false) (hvin : tx.vin = txin :: vin)
    (habs : w.txdb.readTxIndex txin.prevout.hash = none) (hm : m.lookup txin.prevout.hash = none) :
    fetchInputs w ctx w.txdb m true false tx =
      .error (.error "FetchInputs() : fBlock() - prev tx index entry not found") := by
  simp [fetchInputs, hcb, hvin, fetchLoop, fetchInput, hm, habs, rejectIf]

/-- **A block that spends an output nobody has made is refused**, and nothing is written. -/
theorem connectBlock_missing {best : CBlockIndex} {cb tx : CTransaction} {rest : List CTransaction}
    {txin : CTxIn} {vin : List CTxIn} (hl : FirstLimits w)
    (hbest : (w.pindexBest.bind fun hash => w.mapBlockIndex.lookup hash) = some best)
    (he : w.mapBlockIndex.lookup p = some e)
    (hchk : checkBlock E ⟨15000000, 300000, ctx.getAdjustedTime⟩ best.nHeight block
    block.isProofOfWork
      true block.isProofOfStake = .ok ()) (hv : block.vtx = cb :: tx :: rest)
    (hsig : E.getLegacySigOpCount cb + E.getLegacySigOpCount tx ≤ 300000)
    (hcbn : w.txdb.readTxIndex (E.txHash cb) = none)
      (htxn : w.txdb.readTxIndex (E.txHash tx) = none)
    (hvin : tx.vin = txin :: vin) (habs : w.txdb.readTxIndex txin.prevout.hash = none)
    (hne : txin.prevout.hash ≠ E.txHash cb) :
    ∃ s, connectBlock E ctx block p w = .error s w ∧ s.returnsFalse = true := by
  have hsane := checkBlock_spec hchk
  obtain ⟨cb', rest', hv', hcb, hrest⟩ := hsane.coinbase
  obtain ⟨rfl, rfl⟩ := List.cons_eq_cons.1 (hv'.symm.trans hv)
  have htx : tx.isCoinBase = false := hrest tx List.mem_cons_self
  have hval := (hsane.txs cb' (by simp [hv])).getValueOut
  have hsize : updateBlockSize p w = .ok () w := by
    rw [updateBlockSize, get_bind_apply]
    rw [if_neg (not_lt.2 hl.height)]
    rfl
  have htxs : connectTransactions E w ctx p e (blockFlags E block.nTime)
      (.init (firstTxPos e.nBlockPos block)) block.vtx =
        .error (.error "FetchInputs() : fBlock() - prev tx index entry not found") := by
    have h1 : ¬ ((BlockTally.init (firstTxPos e.nBlockPos block)).nSigOps +
        E.getLegacySigOpCount cb' > w.maxBlockSigops) := by
      rw [hl.sigops]
      simp only [BlockTally.init]
      omega
    have h2 : ¬ ((BlockTally.init (firstTxPos e.nBlockPos block)).nSigOps +
        E.getLegacySigOpCount cb' + E.getLegacySigOpCount tx > w.maxBlockSigops) := by
      rw [hl.sigops]
      simp only [BlockTally.init]
      omega
    have hm : ((∅ : MapTxIndex).insert (E.txHash cb') (.ofOutputs
        (e.txPos (BlockTally.init (firstTxPos e.nBlockPos block)).nTxPos) cb'.vout.length)).lookup
          txin.prevout.hash = none := by
      rw [lookup_insert_ne hne, lookup_empty]
    have hfetch := fetchInputs_missing ctx htx hvin habs hm
    rw [hv, connectTransactions, connectTransaction, rejectIf_of_not (by simp [overwrites, hcbn]),
      except_ok_bind]
    simp only [rejectIf_of_not h1, except_ok_bind, if_pos hcb, connectCoinBase, hval]
    rw [connectTransactions, connectTransaction, rejectIf_of_not (by simp [overwrites, htxn]),
      except_ok_bind]
    simp only [rejectIf_of_not h2, htx, connectSpender]
    rw [show (BlockTally.init (firstTxPos e.nBlockPos block)).mapQueuedChanges = ∅ from rfl, hfetch]
    rfl
  refine ⟨.error "FetchInputs() : fBlock() - prev tx index entry not found", ?_, rfl⟩
  rw [connectBlock, bind_of_error (t := w)]
  rw [checkConnect, bind_of_ok (bestIndex_eq_ok.2 ⟨hbest, rfl⟩), get_bind_apply]
  rw [hl.size, hl.sigops, hchk, bind_of_ok (lift_ok () w), bind_of_ok hsize,
    bind_of_ok (deref_of_lookup he), bind_apply]
  simp only [get_apply]
  rw [htxs, bind_of_error (lift_error _ w)]

theorem setBestChainInner_of_false {b : Uint256} {best : CBlockIndex} {s : Stop}
    (ht : IndexTree w.mapBlockIndex g) (he : w.mapBlockIndex.lookup p = some e)
    (hprev : e.pprev = some q) (hb : w.pindexBest = some b)
    (hbest : w.mapBlockIndex.lookup b = some best)
    (h : connectBlock E ctx block p w = .error s w) (hs : s.returnsFalse = true) :
    setBestChainInner E ctx block p w =
      .error .refuse (World.noteInvalid { w with txdb := w.txdb.abort } e.nChainTrust) := by
  have hinv := invalidChainFound_ok (w := { w with txdb := w.txdb.abort }) ht he hprev hb hbest
  rw [setBestChainInner, bind_of_ok (returned_of_false h hs)]
  simp only [Bool.not_false, ↓reduceIte]
  rw [bind_of_ok (txnAbort_apply w), bind_of_ok hinv]
  rfl

/-! ### The best block that was never connected -/

/-- The state after a postponed block has been refused: the pointers name `p`, the database and the
links are those of the path to `pI`. -/
structure Swallowed (E : Env) (g pI p : Uint256) (w : World) : Prop extends Coherent E g w pI where
  best : w.pindexBest = some p
  hashBestChain : w.hashBestChain = p

theorem Swallowed.of_rollingOnly {pI : Uint256} (h : Swallowed E g pI p w) (hr : RollingOnly w w') :
    Swallowed E g pI p w' := by
  rw [hr.eq]
  exact ⟨h.toCoherent.congr rfl rfl rfl rfl, h.best, h.hashBestChain⟩

theorem Swallowed.isInMainChain {pI : Uint256} (h : Swallowed E g pI p w) (hne : p ≠ pI) :
    w.isInMainChain pI = false := by
  have hnext : next w.mapBlockIndex pI = none := by
    rw [Option.eq_none_iff_forall_ne_some]
    intro x hx
    obtain ⟨hpar, hanc⟩ := (h.links pI x).1 hx
    have hup := h.tree.graded hpar
    have hdown := hanc.height_le h.tree.graded
    omega
  simp [World.isInMainChain, hnext, h.best, hne]

/-- **A refused postponed block is swallowed.**  When the reorganisation of a switch succeeds and
the block after it is refused, `SetBestChain` returns `true`, and the best block is one that was
never connected. -/
theorem setBestChain_swallows {t ex : CBlockIndex} {pI x : Uint256}
    {ps : List Uint256} {bx : CBlock} {s : Stop} (hc : Inv E g w tip)
    (hnc : NoCollision E w.files.txs)
    (ht : w.mapBlockIndex.lookup tip = some t) (he : w.mapBlockIndex.lookup p = some e)
    (hprev : e.pprev = some q) (hst : Stored E w.files p q e block)
    (hne : block.hashPrevBlock ≠ tip)
    (hpost : postpone w.mapBlockIndex t.nChainTrust (height w.mapBlockIndex p + 1) p [] =
      some (pI, x :: ps))
    (hreorg : reorganize E ctx pI { w with txdb := w.txdb.begin } = .ok () w1)
    (hx : w1.mapBlockIndex.lookup x = some ex) (hxp : ex.pprev.isSome)
    (hread : readBlockFromDisk E ctx w1 ex = some bx)
    (hfail : connectBlock E ctx bx x { w1 with txdb := w1.txdb.begin } =
      .error s { w1 with txdb := w1.txdb.begin }) (hs : s.returnsFalse = true) :
    ∃ w', setBestChain E ctx block p w = .ok () w' ∧ Swallowed E g pI p w' ∧ SameBlocks w w' ∧
      w'.mapBlockIndex = w1.mapBlockIndex := by
  obtain ⟨tr⟩ := reorganize_spec hreorg
  obtain ⟨hc1, hs1⟩ := tr.coherent hc.toCoherent hc.best hnc
  obtain ⟨r, hr⟩ := Option.isSome_iff_exists.1 hxp
  obtain ⟨t1, ht1⟩ := Option.isSome_iff_exists.1 ((hs1.tree.isSome tip).trans (by simp [ht]))
  -- nothing is left of the batch of the refused block
  have habort : ({ w1 with txdb := (Store.Db.begin w1.txdb).abort } : World) = w1 := by
    rw [show (Store.Db.begin w1.txdb).abort = w1.txdb from CTxDB.fresh_of_noBatch hc1.batch]
  have hinner := setBestChainInner_of_false (w := { w1 with txdb := w1.txdb.begin }) hc1.tree hx hr
    (tr.best.trans hc.best) ht1 hfail hs
  simp only [habort] at hinner
  have hloop : connectPostponed E ctx (x :: ps) w1 = .ok () (w1.noteInvalid ex.nChainTrust) := by
    rw [connectPostponed, bind_of_ok (deref_of_lookup hx), bind_apply]
    simp only [get_apply, hread]
    rw [bind_of_ok (txnBegin_ok hc1.batch), bind_of_ok (returned_of_false hinner rfl)]
    rfl
  have hframe := noteInvalid_frame (M := ∅) w1 ex.nChainTrust
  have hc2 : Coherent E g (w1.noteInvalid ex.nChainTrust) pI :=
    hc1.of_storeKept hframe (hframe.db.batch hc1.batch) fun y hy => absurd hy (Set.notMem_empty y)
  have hs2 := hs1.trans hframe.sameBlocks
  obtain ⟨e2, he2⟩ := Option.isSome_iff_exists.1 ((hs2.tree.isSome p).trans (by simp [he]))
  obtain ⟨e', he', hfix⟩ := hs2.tree.lookup he2
  obtain rfl : e' = e := Option.some.inj (he'.symm.trans he)
  have hnew := newBestBlock_ok (block.getHash E) hc2.tree he2
    ((CBlockIndex.fixed_pprev hfix).trans hprev)
  have hswitch : switchChain E ctx p { w with txdb := w.txdb.begin } =
      .ok () (w1.noteInvalid ex.nChainTrust) := by
    rw [switchChain_eq hc ht hpost, bind_of_ok (returned_of_ok hreorg)]
    exact hloop
  have hrun : setBestChain E ctx block p w =
      newBestBlock (block.getHash E) p (w1.noteInvalid ex.nChainTrust) := by
    rw [setBestChain, bind_of_ok (txnBegin_ok hc.batch),
      bind_of_ok ((attachBlock_switch hc hne).trans hswitch)]
  exact ⟨_, hrun.trans hnew, ⟨hc2.congr rfl rfl rfl rfl, rfl, hst.hash⟩, hs2.trans (.of_eq rfl rfl),
    noteInvalid_mapBlockIndex _ _⟩

end Espers
