import Espers.Chain.Progress

/-!
# How the chain grows

A node that is *ready* (coherent, with an empty memory pool, the first size limits and no roll-back
pending) stays ready while it is offered blocks.

* `loadGenesis_ready` : the first start succeeds.
* `acceptBlock_extends` : **a plain block on top of the best block becomes the best block.**
* `acceptBlock_side` : a block whose branch has no more trust than the best chain is stored and
  indexed, and nothing else changes.
* `acceptBlock_refused` : a branch with more trust whose switch fails is kept in the index.
-/

namespace Espers

open Exec AList BlockMap
open Option (some isSome_iff_exists)

variable {E : Env} {ctx : Ctx} {g p q tip hash : Uint256} {w w' w1 : World} {e d : CBlockIndex}
  {block : CBlock}

/-! ### Connecting directly -/

theorem txnBegin_ok (h : w.txdb.activeBatch = none) :
    txnBegin w = .ok () { w with txdb := w.txdb.begin } := by
  rw [txnBegin, get_bind_apply]
  rw [if_neg (by simp [h])]
  rfl

/-- `SetBestChainInner` succeeds for a block that connects. -/
theorem setBestChainInner_ok (hctx : Calm ctx) (hpool : EmptyPool w)
    (hb : w.txdb.activeBatch.isSome) (hprev : e.pprev = some q)
    (he : w.mapBlockIndex.lookup p = some e) (hd : (w.mapBlockIndex.lookup q).isSome)
    (h : connectBlock E ctx block p w = .ok () w1) :
    ∃ w', setBestChainInner E ctx block p w = .ok () w' ∧ EmptyPool w' := by
  obtain ⟨c⟩ := connectBlock_spec h
  obtain rfl : c.e = e := some.inj (c.entry.symm.trans he)
  have hf : Frame BatchOnly {p} w w1 := c.frame rfl
  obtain ⟨d, hd⟩ := isSome_iff_exists.1 ((hf.sameTree.isSome q).trans hd)
  have hwrite := (BatchOnly.write w1.txdb .hashBestChain (block.getHash E) (hf.db hb).2).2
  set w2 : World := { w1 with txdb := CTxDB.writeHashBestChain w1.txdb (block.getHash E) } with hw2
  set w3 : World := { w2 with txdb := Store.Db.commit w2.txdb } with hw3
  have hpool3 : EmptyPool (w3.setPrevNext p (some p)) := by
    have hm : (w3.setPrevNext p (some p)).mempool = w.mempool := by
      rw [(setPrevNext_linksOnly w3 p (some p)).eq]
      exact hf.pool
    exact ⟨by rw [hm]; exact hpool.mapTx, by rw [hm]; exact hpool.mapNextTx⟩
  refine ⟨w3.setPrevNext p (some p), ?_, hpool3⟩
  rw [setBestChainInner, bind_of_ok (returned_of_ok h)]
  simp only [Bool.not_true, Bool.false_eq_true, ↓reduceIte]
  rw [bind_of_ok (show modifyDb (fun txdb => CTxDB.writeHashBestChain txdb (block.getHash E)) w1 =
      .ok () w2 from rfl), bind_of_ok (txnCommit_ok hctx hwrite),
    bind_of_ok (deref_of_lookup (w := w3) c.entry'),
    show (c.e.minted c.prev c.t).pprev = some q from hprev,
      bind_of_ok (deref_of_lookup (w := w3) hd)]
  exact removeBlockFromPool_empty hpool3 block.vtx

/-- The end of `SetBestChain` succeeds on a tree. -/
theorem newBestBlock_ok (hash : Uint256) (ht : IndexTree w.mapBlockIndex g)
    (he : w.mapBlockIndex.lookup p = some e) (hprev : e.pprev = some q) :
    newBestBlock hash p w = .ok () { w with
      hashBestChain := hash, pindexBest := some p, pblockindexFBBHLast := none
      nBestHeight := e.nHeight, nBestChainTrust := e.nChainTrust
      mempool := { w.mempool with nTransactionsUpdated :=
        w.mempool.nTransactionsUpdated + 1 } } := by
  obtain ⟨d, hd, hh⟩ := ht.prev p e q he hprev
  rw [newBestBlock, bind_of_ok (deref_of_lookup he)]
  set w1 : World := { w with
    hashBestChain := hash, pindexBest := some p, pblockindexFBBHLast := none
    nBestHeight := e.nHeight, nBestChainTrust := e.nChainTrust
    mempool := { w.mempool with nTransactionsUpdated := w.mempool.nTransactionsUpdated + 1 } }
  rw [bind_of_ok (show (modify (fun w : World => { w with
    hashBestChain := hash, pindexBest := some p, pblockindexFBBHLast := none
    nBestHeight := e.nHeight, nBestChainTrust := e.nChainTrust
    mempool := { w.mempool with nTransactionsUpdated := w.mempool.nTransactionsUpdated + 1 } }) :
      Node Unit) w = .ok () w1 from rfl), if_pos (by omega), hprev,
    bind_of_ok (deref_of_lookup (w := w1) hd)]
  rfl

/-! ### Ready nodes -/

/-- A coherent node with an empty memory pool, the first size limits and no roll-back pending. -/
structure Ready (E : Env) (g : Uint256) (w : World) (tip : Uint256) : Prop
    extends Inv E g w tip where
  limits : FirstLimits w
  pool : EmptyPool w
  bestTrust : ∀ e, w.mapBlockIndex.lookup tip = some e → w.nBestChainTrust = e.nChainTrust
  rollback : w.fRollbacktoBlock = false

/-- The block has been written to the files and has got the entry `e`, above `d`. -/
structure JustIndexed (E : Env) (w w1 : World) (block : CBlock) (d e : CBlockIndex) : Prop where
  eq : w1 = { w with
    mapBlockIndex := w.mapBlockIndex.insert (block.getHash E) e, setStakeSeen := w1.setStakeSeen
    txdb := w1.txdb, files := (w.files.writeToDisk block).1 }
  prev : e.pprev = some block.hashPrevBlock
  height : e.nHeight = d.nHeight + 1
  trust : e.nChainTrust = d.nChainTrust + getBlockTrust block.nBits
  time : e.nTime = block.nTime
  supply : e.nMoneySupply = 0
  stored : Stored E w1.files (block.getHash E) block.hashPrevBlock e block

section

variable (h : JustIndexed E w w1 block d e)
include h

theorem JustIndexed.entry : w1.mapBlockIndex.lookup (block.getHash E) = some e := by
  rw [h.eq]
  exact lookup_insert _

theorem JustIndexed.lookup_of_ne (hp : p ≠ block.getHash E) :
    w1.mapBlockIndex.lookup p = w.mapBlockIndex.lookup p := by
  rw [h.eq]
  exact lookup_insert_ne hp

theorem JustIndexed.files : w1.files = (w.files.writeToDisk block).1 := by
  rw [h.eq]

theorem JustIndexed.ready (hr : Ready E g w tip)
    (hi : Inv E g w1 tip) (hne : tip ≠ block.getHash E) : Ready E g w1 tip := by
  refine ⟨hi, ⟨?_, ?_, ?_⟩, ⟨?_, ?_⟩, fun t ht => ?_, ?_⟩
  · rw [h.eq]; exact hr.limits.size
  · rw [h.eq]; exact hr.limits.sigops
  · rw [h.eq]; exact hr.limits.height
  · rw [h.eq]; exact hr.pool.mapTx
  · rw [h.eq]; exact hr.pool.mapNextTx
  · rw [h.lookup_of_ne hne] at ht
    rw [h.eq]
    exact hr.bestTrust t ht
  · rw [h.eq]; exact hr.rollback

end

/-- What `AcceptBlock` asks of a block that is new to the node. -/
structure Acceptable (E : Env) (ctx : Ctx) (w : World) (block : CBlock) (d : CBlockIndex) :
    Prop where
  new : w.mapBlockIndex.lookup (block.getHash E) = none
  parent : w.mapBlockIndex.lookup block.hashPrevBlock = some d
  checks : (checkAcceptBlock E ctx d block).isOk = true
  modifier : (ctx.computeNextStakeModifier (some block.hashPrevBlock)).isSome
  file : (w.files.writeToDisk block).2.1 < uintMax

/-- Storing an acceptable block: it is written and indexed, and then `SetBestChain` is called if its
branch has more trust than the best chain. -/
theorem storeBlock_eq (hashProof : Uint256) (hctx : Calm ctx) (hc : Inv E g w tip)
    (ha : Acceptable E ctx w block d) (hh : pushInt (d.nHeight + 1) <+: block.coinbaseScript) :
    ∃ e w1, JustIndexed E w w1 block d e ∧ Inv E g w1 tip ∧ storeBlock E ctx block hashProof w =
        (if e.nChainTrust > w.nBestChainTrust then
          mapError (Stop.report .refuse) (setBestChain E ctx block (block.getHash E))
        else pure ()) w1 := by
  obtain ⟨modifier, hmod⟩ := isSome_iff_exists.1 ha.modifier
  have hjs := JustStored.of_writeToDisk ha.parent hh
  set w0 : World := { w with files := (w.files.writeToDisk block).1 } with hw0
  have hi := hc.files (writeToDisk_grows w.files block)
  have hmod0 : ctx.computeNextStakeModifier
    ((w0.mapBlockIndex.lookup block.hashPrevBlock).map fun _ =>
      block.hashPrevBlock) = some modifier := by
    rw [show w0.mapBlockIndex.lookup block.hashPrevBlock = some d from ha.parent]
    exact hmod
  rcases indexBlock_eq (E := E) (w := w0) (w.files.writeToDisk block).2.2 hashProof
    hc.batch ha.new hmod0 ha.file with ⟨-, hidx⟩ | ⟨hfail, -⟩
  · obtain ⟨hi1, e, he, hprev, hst⟩ := indexBlock_inv hi hjs hidx
    obtain rfl := some.inj ((lookup_insert w0.mapBlockIndex).symm.trans he)
    refine ⟨_, _, ⟨rfl,
      hprev, by simp [newIndexEntry, hjs.parent], by simp [newIndexEntry, hjs.parent], rfl, rfl,
      hst⟩, hi1, ?_⟩
    show addToBlockIndex E ctx block (w.files.writeToDisk block).2.1 (w.files.writeToDisk block).2.2
      hashProof w0 = _
    rw [addToBlockIndex, bind_of_ok hidx, bind_of_ok (deref_of_lookup he), bind_apply]
    rfl
  · rw [hctx.commits] at hfail
    cases hfail

theorem Acceptable.exists_proof (ha : Acceptable E ctx w block d) :
    ∃ hashProof, checkAcceptBlock E ctx d block = .ok hashProof := by
  have h := ha.checks
  cases hc : checkAcceptBlock E ctx d block with
  | ok hashProof => exact ⟨hashProof, rfl⟩
  | error s => rw [hc] at h; cases h

theorem Acceptable.prev_ne (ha : Acceptable E ctx w block d) :
    block.hashPrevBlock ≠ block.getHash E := by
  intro h
  have := ha.parent
  rw [h, ha.new] at this
  cases this

theorem Acceptable.tip_ne (ha : Acceptable E ctx w block d) (hc : Inv E g w tip) :
    tip ≠ block.getHash E := by
  rintro rfl
  obtain ⟨l, hl⟩ := hc.reads
  have := hl.lookup_isSome
  rw [ha.new] at this
  cases this

variable {hashProof : Uint256}

section

variable (ha : Acceptable E ctx w block d) (hchk : checkAcceptBlock E ctx d block = .ok hashProof)
include ha hchk

/-- `AcceptBlock` of an acceptable block stores it and sets the rolling checkpoint. -/
theorem acceptBlock_eq :
    acceptBlock E ctx block w = (do
      mapError (Stop.report (.error "AcceptBlock() : AddToBlockIndex failed"))
        (storeBlock E ctx block hashProof)
      let fRollingCheckpoint ← rollingCheckpoints ((d.nHeight : ℤ) + 1) block.hashPrevBlock
      modify fun w => { w with fRollingCheckpoint := fRollingCheckpoint } : Node Unit) w := by
  have hversion : ¬ (block.nVersion > 7) := by
    have h := hchk
    simp only [checkAcceptBlock, except_bind_eq_ok, rejectIf_eq_ok, exists_and_left] at h
    exact h.2.1
  rw [acceptBlock, get_bind_apply]
  rw [rejectIf_of_not (by simp [hversion]), bind_of_ok (lift_ok () w),
    rejectIf_of_not (by simp [ha.new]), bind_of_ok (lift_ok () w), ha.parent]
  simp only [hchk]
  rw [bind_of_ok (lift_ok hashProof w)]

theorem acceptBlock_of_ok
    (h : storeBlock E ctx block hashProof w = .ok () w1) (ht : IndexTree w1.mapBlockIndex g)
    (hprev : (w1.mapBlockIndex.lookup block.hashPrevBlock).isSome) :
    ∃ w', acceptBlock E ctx block w = .ok () w' ∧ RollingOnly w1 w' := by
  obtain ⟨b, w2, h2⟩ := rollingCheckpoints_ok ht hprev ((d.nHeight : ℤ) + 1)
  refine ⟨{ w2 with fRollingCheckpoint := b }, ?_, ?_⟩
  · rw [acceptBlock_eq ha hchk, bind_of_ok (mapError_eq_ok.2 h), bind_of_ok h2]
    rfl
  · exact IsTrans.trans _ _ _ ((rollingCheckpoints_keeps _ _).ok h2) ⟨rfl, id⟩

theorem acceptBlock_of_false {s : Stop}
    (h : storeBlock E ctx block hashProof w = .error s w1) (hs : s.returnsFalse = true) :
    acceptBlock E ctx block w = .error (.error "AcceptBlock() : AddToBlockIndex failed") w1 := by
  have hmap : mapError (.report (.error "AcceptBlock() : AddToBlockIndex failed"))
      (storeBlock E ctx block hashProof) w =
        .error (.error "AcceptBlock() : AddToBlockIndex failed") w1 :=
    mapError_eq_error.2 ⟨s, h, by simp [Stop.report, hs]⟩
  rw [acceptBlock_eq ha hchk, bind_of_error hmap]

end

theorem Ready.of_rollingOnly (h : Ready E g w tip) (hr : RollingOnly w w') : Ready E g w' tip := by
  have hroll : w'.fRollbacktoBlock = false := by
    cases hf : w'.fRollbacktoBlock with
    | false => rfl
    | true =>
      have := hr.rollback hf
      rw [h.rollback] at this
      cases this
  have hinv := h.toInv.of_rollingOnly hr
  rw [hr.eq] at hinv ⊢
  exact ⟨hinv, ⟨h.limits.size, h.limits.sigops, h.limits.height⟩, ⟨h.pool.mapTx, h.pool.mapNextTx⟩,
    h.bestTrust, hroll⟩

/-! ### The first start -/

/-- `SetBestChain` of the genesis block, on a node that has none. -/
theorem setBestChain_starts (hctx : Calm ctx) (hb : w.txdb.activeBatch = none)
    (hgen : w.pindexGenesisBlock = none) (hhash : block.getHash E = E.hashGenesisBlock)
    (he : w.mapBlockIndex.lookup p = some e) (h0 : e.nHeight = 0) :
    setBestChain E ctx block p w = .ok () { w with
      txdb := Store.Db.commit (CTxDB.writeHashBestChain w.txdb.begin (block.getHash E))
      pindexGenesisBlock := some p
      hashBestChain := block.getHash E, pindexBest := some p, pblockindexFBBHLast := none
      nBestHeight := e.nHeight, nBestChainTrust := e.nChainTrust
      mempool := { w.mempool with nTransactionsUpdated :=
        w.mempool.nTransactionsUpdated + 1 } } := by
  set w1 : World :=
    { w with txdb := .writeHashBestChain w.txdb.begin (block.getHash E) } with hw1
  have hwrite : w1.txdb.activeBatch.isSome :=
    (Store.Db.write_pdb (show (Store.Db.begin w.txdb).activeBatch.isSome from rfl) _ _).2
  set w2 : World := { w1 with txdb := w1.txdb.commit, pindexGenesisBlock := some p } with hw2
  have hattach : attachBlock E ctx block p { w with txdb := w.txdb.begin } = .ok () w2 := by
    rw [attachBlock, get_bind_apply]
    rw [if_pos ⟨hgen, hhash⟩, startChain, bind_of_ok (show modifyDb (fun txdb =>
      CTxDB.writeHashBestChain txdb (block.getHash E)) { w with txdb := w.txdb.begin } =
        .ok () w1 from rfl),
      bind_of_ok (txnCommit_ok hctx hwrite)]
    rfl
  rw [setBestChain, bind_of_ok (txnBegin_ok hb), bind_of_ok hattach, newBestBlock,
    bind_of_ok (deref_of_lookup (w := w2) he), bind_apply]
  rw [if_neg (not_not.2 h0)]
  rfl

/-- **The first start succeeds** and leaves a node that is ready, with nothing but genesis. -/
theorem loadGenesis_ready {genesis : CBlock} (hctx : Calm ctx) (hg : GenesisBlock E genesis)
    (hmod : (ctx.computeNextStakeModifier none).isSome) (htrust : getBlockTrust genesis.nBits > 0) :
    ∃ e w, loadGenesis E ctx genesis emptyWorld = .ok () w ∧
      w.pindexBest = some (genesis.getHash E) ∧ Ready E (genesis.getHash E) w (genesis.getHash E) ∧
      w.mapBlockIndex = (∅ : BlockMap).insert (genesis.getHash E) e ∧ e.pprev = none ∧
      e.nHeight = 0 ∧ e.nTime = genesis.nTime ∧ e.nChainTrust = getBlockTrust genesis.nBits ∧
      w.files = (emptyWorld.files.writeToDisk genesis).1 := by
  obtain ⟨modifier, hmod⟩ := isSome_iff_exists.1 hmod
  set w0 : World := { emptyWorld with files := (emptyWorld.files.writeToDisk genesis).1 } with hw0
  have hfile : (emptyWorld.files.writeToDisk genesis).2.1 < uintMax := by
    show 1 < uintMax
    decide
  rcases indexBlock_eq (E := E) (w := w0) (emptyWorld.files.writeToDisk genesis).2.2
    E.hashGenesisBlock rfl (show w0.mapBlockIndex.lookup (genesis.getHash E) = none from rfl) hmod
    hfile with ⟨-, hidx⟩ | ⟨hfail, -⟩
  · set e := newIndexEntry E ctx w0 genesis (emptyWorld.files.writeToDisk genesis).2.1
      (emptyWorld.files.writeToDisk genesis).2.2 E.hashGenesisBlock hfile modifier with he
    set w1 := w0.withEntry (genesis.getHash E) e
      (CTxDB.writeBlockIndex E w0.txdb.begin (.ofIndex e)).commit with hw1
    have hlook : w1.mapBlockIndex.lookup (genesis.getHash E) = some e := lookup_insert _
    have hzero : e.nHeight = 0 := rfl
    have hsum : e.nChainTrust = getBlockTrust genesis.nBits := BitVec.zero_add _
    have hset := setBestChain_starts (w := w1) hctx rfl rfl hg.hash hlook hzero
    have hrun : loadGenesis E ctx genesis emptyWorld =
      setBestChain E ctx genesis (genesis.getHash E) w1 := by
      show addToBlockIndex E ctx genesis (emptyWorld.files.writeToDisk genesis).2.1
        (emptyWorld.files.writeToDisk genesis).2.2 E.hashGenesisBlock w0 = _
      rw [addToBlockIndex, bind_of_ok hidx, bind_of_ok (deref_of_lookup hlook), get_bind_apply]
      rw [if_pos (by rw [hsum]; exact htrust), hset]
      exact mapError_eq_ok.2 hset
    have hload := hrun.trans hset
    refine ⟨e, _, hload, rfl, ⟨loadGenesis_inv hg hload rfl, ⟨rfl, rfl, ?_⟩, ⟨rfl, rfl⟩,
      fun x hx => ?_, rfl⟩, rfl, rfl, rfl, rfl, hsum, rfl⟩
    · show (e.nHeight : ℤ) ≤ sysUpgrade01
      rw [hzero]
      decide
    · rw [some.inj (hx.symm.trans hlook)]
  · rw [hctx.commits] at hfail
    cases hfail

/-! ### Three outcomes -/

/-- **A block whose branch has no more trust than the best chain** is stored and indexed. -/
theorem acceptBlock_side (hctx : Calm ctx) (hr : Ready E g w tip) (ha : Acceptable E ctx w block d)
    (htrust : ¬ (d.nChainTrust + getBlockTrust block.nBits > w.nBestChainTrust)) :
    ∃ e w1 w', acceptBlock E ctx block w = .ok () w' ∧ Ready E g w' tip ∧
      JustIndexed E w w1 block d e ∧ RollingOnly w1 w' := by
  obtain ⟨hashProof, hchk⟩ := ha.exists_proof
  obtain ⟨e, w1, hj, hi, hstore⟩ := storeBlock_eq hashProof hctx hr.toInv ha
    (checkAcceptBlock_height hchk)
  rw [if_neg (by rw [hj.trust]; exact htrust)] at hstore
  have hprev : (w1.mapBlockIndex.lookup block.hashPrevBlock).isSome := by
    rw [hj.lookup_of_ne ha.prev_ne]
    simp [ha.parent]
  obtain ⟨w', hw', hroll⟩ := acceptBlock_of_ok ha hchk hstore hi.tree hprev
  exact ⟨e, w1, w', hw', (hj.ready hr hi (ha.tip_ne hr.toInv)).of_rollingOnly hroll, hj, hroll⟩

/-- **A block whose branch has more trust than the best chain** is stored and indexed, and the rest
is up to `SetBestChain`. -/
theorem acceptBlock_tries (hctx : Calm ctx) (hr : Ready E g w tip) (ha : Acceptable E ctx w block d)
    (htrust : d.nChainTrust + getBlockTrust block.nBits > w.nBestChainTrust) :
    ∃ e w1, JustIndexed E w w1 block d e ∧ Ready E g w1 tip ∧
      (∀ w2, setBestChain E ctx block (block.getHash E) w1 = .ok () w2 →
        IndexTree w2.mapBlockIndex g → SameBlocks w1 w2 →
          ∃ w', acceptBlock E ctx block w = .ok () w' ∧ RollingOnly w2 w') ∧
      ∀ s w2, setBestChain E ctx block (block.getHash E) w1 = .error s w2 → s.returnsFalse = true →
        acceptBlock E ctx block w =
        .error (.error "AcceptBlock() : AddToBlockIndex failed") w2 := by
  obtain ⟨hashProof, hchk⟩ := ha.exists_proof
  obtain ⟨e, w1, hj, hi, hstore⟩ := storeBlock_eq hashProof hctx hr.toInv ha
    (checkAcceptBlock_height hchk)
  rw [if_pos (by rw [hj.trust]; exact htrust)] at hstore
  refine ⟨e, w1, hj, hj.ready hr hi (ha.tip_ne hr.toInv), fun w2 h2 ht hs => ?_,
    fun s w2 h2 hs => ?_⟩
  · have hprev : (w2.mapBlockIndex.lookup block.hashPrevBlock).isSome := by
      rw [hs.tree.isSome, hj.lookup_of_ne ha.prev_ne]
      simp [ha.parent]
    exact acceptBlock_of_ok ha hchk (hstore.trans (mapError_eq_ok.2 h2)) ht hprev
  · have hmap : mapError (.report .refuse) (setBestChain E ctx block (block.getHash E)) w1 =
        .error .refuse w2 := mapError_eq_error.2 ⟨s, h2, by simp [Stop.report, hs]⟩
    exact acceptBlock_of_false ha hchk (hstore.trans hmap) rfl

theorem InnerTrace.kept (t : InnerTrace E ctx block p w w') (hl : FirstLimits w) :
    FirstLimits w' ∧ (w'.fRollbacktoBlock = true → w.fRollbacktoBlock = true) := by
  have hf : Frame BatchOnly {p} w t.mid := (connectBlock_keeps (M := {p}) rfl).ok t.connected
  have hl1 := hf.firstLimits hl
  rw [t.rest.eq, (relink_linksOnly _ [] [p]).eq]
  exact ⟨⟨hl1.size, hl1.sigops, hl1.height⟩, hf.rollback⟩

theorem ReorgTrace.firstLimits (t : ReorgTrace E ctx p w w') (hl : FirstLimits w) :
    FirstLimits w' := by
  have hl1 := t.frame.firstLimits hl
  rw [t.rest.eq, (relink_linksOnly _ _ _).eq]
  exact ⟨hl1.size, hl1.sigops, hl1.height⟩

/-- **`SetBestChain` of a plain block on top of the best block succeeds.** -/
theorem setBestChain_extends (hctx : Calm ctx) (hr : Ready E g w tip)
    (hnc : NoCollision E w.files.txs) (he : w.mapBlockIndex.lookup p = some e)
    (hprev : e.pprev = some tip) (hst : Stored E w.files p tip e block)
    (hp : PlainBlock E ctx e.nHeight block) (hh : e.nHeight ≤ sysUpgrade01) :
    ∃ w', setBestChain E ctx block p w = .ok () w' ∧ Ready E g w' p ∧ SameBlocks w w' := by
  obtain ⟨t, htip⟩ : ∃ t, w.mapBlockIndex.lookup tip = some t := by
    obtain ⟨l, hl⟩ := hr.reads
    exact isSome_iff_exists.1 hl.lookup_isSome
  set w0 : World := { w with txdb := w.txdb.begin } with hw0
  obtain ⟨hi, hreads, -⟩ := hr.toCoherent.begin
  have hl0 : FirstLimits w0 := ⟨hr.limits.size, hr.limits.sigops, hr.limits.height⟩
  obtain ⟨w1, h1⟩ := connectBlock_plainAt hi hreads hnc hl0
    (Option.bind_eq_some_iff.2 ⟨tip, hr.best, htip⟩) he hprev hst hp
  obtain ⟨w2, h2, hpool2⟩ := setBestChainInner_ok hctx (w := w0)
    ⟨hr.pool.mapTx, hr.pool.mapNextTx⟩ rfl hprev he (by simp [hw0, htip]) h1
  obtain ⟨tr⟩ := setBestChainInner_spec h2
  obtain ⟨hl2, hroll2⟩ := tr.kept hl0
  obtain ⟨hc2, hs2⟩ := tr.coherent hr.toCoherent hnc he hprev hst
  obtain ⟨e2, he2⟩ := isSome_iff_exists.1 ((hs2.tree.isSome p).trans (by simp [he]))
  obtain ⟨e', he', hfix⟩ := hs2.tree.lookup he2
  obtain rfl : e' = e := some.inj (he'.symm.trans he)
  have hprev2 : e2.pprev = some tip := (CBlockIndex.fixed_pprev hfix).trans hprev
  have hheight2 : e2.nHeight = e'.nHeight := CBlockIndex.fixed_nHeight hfix
  have hnew := newBestBlock_ok (block.getHash E) hc2.tree he2 hprev2
  obtain ⟨hi3, hs3⟩ := newBestBlock_inv hc2 hst.hash hnew
  refine ⟨_, ?_, ⟨hi3, ⟨hl2.size, hl2.sigops, ?_⟩, ⟨hpool2.mapTx, hpool2.mapNextTx⟩,
    fun x hx => ?_, ?_⟩, hs2.trans hs3⟩
  · have hattach : attachBlock E ctx block p w0 = .ok () w2 := by
      rw [attachBlock, get_bind_apply]
      rw [if_neg (by simp [hw0, hr.genesis]), if_pos (hst.prev.trans hr.hashBestChain.symm)]
      exact mapError_eq_ok.2 h2
    rw [setBestChain, bind_of_ok (txnBegin_ok hr.batch), bind_of_ok hattach]
    exact hnew
  · show (e2.nHeight : ℤ) ≤ sysUpgrade01
    rw [hheight2]
    exact hh
  · rw [some.inj (hx.symm.trans he2)]
  · cases hf : w2.fRollbacktoBlock with
    | false => rfl
    | true =>
      have := hroll2 hf
      rw [show w0.fRollbacktoBlock = false from hr.rollback] at this
      cases this

/-- **A plain block on top of the best block becomes the best block.** -/
theorem acceptBlock_extends (hctx : Calm ctx) (hr : Ready E g w tip)
    (hnc : NoCollision E (w.files.writeToDisk block).1.txs) (ha : Acceptable E ctx w block d)
    (hprev : block.hashPrevBlock = tip) (hp : PlainBlock E ctx (d.nHeight + 1) block)
    (hh : (d.nHeight : ℤ) + 1 ≤ sysUpgrade01)
    (htrust : d.nChainTrust + getBlockTrust block.nBits > d.nChainTrust) :
    ∃ e w1 w', acceptBlock E ctx block w = .ok () w' ∧ Ready E g w' (block.getHash E) ∧
      JustIndexed E w w1 block d e ∧ SameBlocks w1 w' := by
  subst hprev
  obtain ⟨e, w1, hj, hr1, hok, -⟩ := acceptBlock_tries hctx hr ha
    (by rw [hr.bestTrust d ha.parent]; exact htrust)
  obtain ⟨w2, h2, hr2, hs2⟩ :=
    setBestChain_extends hctx hr1 (by rw [hj.files]; exact hnc) hj.entry hj.prev hj.stored
    (by rw [hj.height]; exact hp) (by rw [hj.height]; exact_mod_cast hh)
  obtain ⟨w', hw', hroll⟩ := hok w2 h2 hr2.tree hs2
  refine ⟨e, w1, w', hw', hr2.of_rollingOnly hroll, hj, hs2.trans ?_⟩
  rw [hroll.eq]
  exact .of_eq rfl rfl

/-! ### A switch that fails -/

@[simp] theorem noteInvalid_mapBlockIndex (w : World) (trust : Uint256) :
    (w.noteInvalid trust).mapBlockIndex = w.mapBlockIndex := by
  unfold World.noteInvalid
  split_ifs <;> rfl

@[simp] theorem noteInvalid_pindexBest (w : World) (trust : Uint256) :
    (w.noteInvalid trust).pindexBest = w.pindexBest := by
  unfold World.noteInvalid
  split_ifs <;> rfl

@[simp] theorem noteInvalid_walletLog (w : World) (trust : Uint256) :
    (w.noteInvalid trust).walletLog = w.walletLog := by
  unfold World.noteInvalid
  split_ifs <;> rfl

/-- `InvalidChainFound` ends on a tree. -/
theorem invalidChainFound_ok {b : Uint256} {best : CBlockIndex} (ht : IndexTree w.mapBlockIndex g)
    (he : w.mapBlockIndex.lookup p = some e) (hprev : e.pprev = some q)
    (hb : w.pindexBest = some b) (hbest : w.mapBlockIndex.lookup b = some best) :
    invalidChainFound p w = .ok () (w.noteInvalid e.nChainTrust) := by
  obtain ⟨d, hd, -⟩ := ht.prev p e q he hprev
  have hd1 := deref_of_lookup (w := w.noteInvalid e.nChainTrust) (p := q) (e := d)
    (by simpa using hd)
  have hb1 : bestIndex (w.noteInvalid e.nChainTrust) = .ok best (w.noteInvalid e.nChainTrust) :=
    bestIndex_eq_ok.2 ⟨by simp [hb, hbest], rfl⟩
  rw [invalidChainFound, bind_of_ok (deref_of_lookup he),
    bind_of_ok (show (modify (fun w : World => w.noteInvalid e.nChainTrust) : Node Unit) w =
      .ok () (w.noteInvalid e.nChainTrust) from rfl), hprev, bind_of_ok hd1, bind_of_ok hb1]
  by_cases h0 : best.nHeight = 0
  · rw [if_neg (not_not.2 h0)]
    rfl
  · obtain ⟨r, hr, hrs⟩ := ht.exists_parent (p := b) (by simp [hbest])
      (by rw [height_of_lookup hbest]; omega)
    obtain ⟨c, hc⟩ := isSome_iff_exists.1 hrs
    rw [parent_of_lookup hbest] at hr
    rw [if_pos h0, hr, bind_of_ok (deref_of_lookup (e := c) (by simpa using hc))]
    rfl

theorem attachBlock_switch (hc : Inv E g w tip) (hne : block.hashPrevBlock ≠ tip) :
    attachBlock E ctx block p { w with txdb := w.txdb.begin } =
      switchChain E ctx p { w with txdb := w.txdb.begin } := by
  rw [attachBlock, get_bind_apply]
  rw [if_neg (by simp [hc.genesis]), if_neg (by rw [hc.hashBestChain]; exact hne)]

theorem switchChain_eq {t : CBlockIndex} {pI : Uint256} {ps : List Uint256} (hc : Inv E g w tip)
    (ht : w.mapBlockIndex.lookup tip = some t)
    (hpost : postpone w.mapBlockIndex t.nChainTrust (height w.mapBlockIndex p + 1) p [] =
      some (pI, ps)) :
    switchChain E ctx p { w with txdb := w.txdb.begin } = (do
      let switched ← returned (reorganize E ctx pI)
      if !switched then do
        txnAbort
        invalidChainFound p
        throw (.error "SetBestChain() : Reorganize failed")
      else connectPostponed E ctx ps : Node Unit) { w with txdb := w.txdb.begin } := by
  have hbest : bestIndex { w with txdb := w.txdb.begin } = .ok t { w with txdb := w.txdb.begin } :=
    bestIndex_eq_ok.2 ⟨Option.bind_eq_some_iff.2 ⟨tip, hc.best, ht⟩, rfl⟩
  rw [switchChain, bind_of_ok hbest, bind_apply]
  simp only [get_apply, hpost]

section

variable {m : BlockMap} {bestTrust : Uint256} {fuel : ℕ} {acc : List Uint256}
  (he : m.lookup p = some e) (hq : e.pprev = some q) (hd : m.lookup q = some d)
include he hq hd

theorem postpone_stop (hle : ¬ d.nChainTrust > bestTrust) : postpone m bestTrust (fuel + 1) p acc =
    some (p, acc) := by
  simp only [postpone, he, hq, hd, if_neg hle]

theorem postpone_step (hgt : d.nChainTrust > bestTrust) :
    postpone m bestTrust (fuel + 1) p acc = postpone m bestTrust fuel q (p :: acc) := by
  simp only [postpone, he, hq, hd, if_pos hgt]

end

theorem reorganize_denied {b : Uint256} {best new : CBlockIndex} {s : Stop}
    (hb : w.pindexBest = some b) (hbest : w.mapBlockIndex.lookup b = some best)
    (hnew : w.mapBlockIndex.lookup p = some new)
    (h : checkMerge ctx w.fRollbacktoBlock (mergeShape best new) = .error s) :
    reorganize E ctx p w = .error s { w with fRollbacktoBlock := false } := by
  have hbi : bestIndex w = .ok best w := bestIndex_eq_ok.2 ⟨by rw [hb]; exact hbest, rfl⟩
  have hplan : planReorganize ctx p w = .error s { w with fRollbacktoBlock := false } := by
    rw [planReorganize, get_bind_apply]
    rw [bind_of_ok hbi, bind_of_ok (deref_of_lookup hnew), bind_of_ok (show (modify (fun w =>
      { w with fRollbacktoBlock := false }) : Node Unit) w = .ok ()
        { w with fRollbacktoBlock := false }
      from rfl), h, bind_of_error (lift_error s _)]
  have hswitch : switchBranch E ctx p w = .error s { w with fRollbacktoBlock := false } := by
    rw [switchBranch, bind_of_error hplan]
  rw [reorganize, bind_of_error hswitch]

/-- **A switch whose reorganisation fails makes `SetBestChain` return `false`.** -/
theorem setBestChain_of_reorganize_false {t : CBlockIndex} {pI : Uint256}
    {ps : List Uint256} {s : Stop} (hc : Inv E g w tip) (ht : w.mapBlockIndex.lookup tip = some t)
    (he : w.mapBlockIndex.lookup p = some e) (hprev : e.pprev = some q)
    (hne : block.hashPrevBlock ≠ tip)
    (hpost : postpone w.mapBlockIndex t.nChainTrust (height w.mapBlockIndex p + 1) p [] =
      some (pI, ps))
    (hreorg : reorganize E ctx pI { w with txdb := w.txdb.begin } = .error s w1)
    (hs : s.returnsFalse = true) :
    ∃ s' w', setBestChain E ctx block p w = .error s' w' ∧ s'.returnsFalse = true ∧
      w'.walletLog = w1.walletLog := by
  obtain ⟨M, -, hf⟩ := reorganize_false hreorg hs rfl
  obtain ⟨hi, -, -⟩ := hc.toCoherent.begin
  have hi1 := hi.frame hf
  obtain ⟨e1, he1⟩ := isSome_iff_exists.1 ((hf.sameTree.isSome p).trans (by simp [he]))
  obtain ⟨e', he', hfix⟩ := hf.sameTree.lookup he1
  obtain rfl : e' = e := some.inj (he'.symm.trans he)
  obtain ⟨t1, ht1⟩ := isSome_iff_exists.1 ((hf.sameTree.isSome tip).trans (by simp [ht]))
  have h2 := invalidChainFound_ok (w := { w1 with txdb := w1.txdb.abort }) hi1.tree he1
    ((CBlockIndex.fixed_pprev hfix).trans hprev) (hf.best.trans hc.best) ht1
  have hswitch : switchChain E ctx p { w with txdb := w.txdb.begin } =
      .error (.error "SetBestChain() : Reorganize failed")
        (World.noteInvalid { w1 with txdb := w1.txdb.abort } e1.nChainTrust) := by
    rw [switchChain_eq hc ht hpost, bind_of_ok (returned_of_false hreorg hs)]
    simp only [Bool.not_false, ↓reduceIte]
    rw [bind_of_ok (txnAbort_apply w1), bind_of_ok h2]
    rfl
  refine ⟨.error "SetBestChain() : Reorganize failed",
    World.noteInvalid { w1 with txdb := w1.txdb.abort } e1.nChainTrust, ?_, rfl,
    noteInvalid_walletLog _ _⟩
  rw [setBestChain, bind_of_ok (txnBegin_ok hc.batch),
    bind_of_error ((attachBlock_switch hc hne).trans hswitch)]

/-- A node stays ready when `SetBestChain` returns `false`. -/
theorem Ready.of_setBestChain_false {s : Stop} (hr : Ready E g w tip)
    (he : w.mapBlockIndex.lookup p = some e) (hprev : e.pprev = some q)
    (hst : Stored E w.files p q e block) (h : setBestChain E ctx block p w = .error s w')
    (hs : s.returnsFalse = true) : Ready E g w' tip ∧ SameBlocks w w' := by
  obtain ⟨hi, hsame⟩ := setBestChain_inv_of_false hr.toInv he hprev hst h hs
  obtain ⟨⟨M, -, hf⟩, -⟩ := setBestChain_false h hs
  refine ⟨⟨hi, hf.firstLimits hr.limits, ⟨?_, ?_⟩, fun t ht => ?_, ?_⟩, hsame⟩
  · rw [hf.pool]; exact hr.pool.mapTx
  · rw [hf.pool]; exact hr.pool.mapNextTx
  · obtain ⟨t', ht', hsk⟩ := skeleton_lookup (hf.skeleton tip) ht
    rw [hf.bestTrust, hr.bestTrust t' ht']
    exact (congrArg CBlockIndex.nChainTrust hsk).symm
  · cases hroll : w'.fRollbacktoBlock with
    | false => rfl
    | true =>
      have := hf.rollback hroll
      rw [hr.rollback] at this
      cases this

/-- **A branch with more trust whose switch fails** is kept in the index. -/
theorem acceptBlock_refused (hctx : Calm ctx) (hr : Ready E g w tip)
    (ha : Acceptable E ctx w block d)
    (htrust : d.nChainTrust + getBlockTrust block.nBits > w.nBestChainTrust)
    (hfalse : ∀ e w1, JustIndexed E w w1 block d e → Ready E g w1 tip →
      ∃ s w2, setBestChain E ctx block (block.getHash E) w1 = .error s w2 ∧ s.returnsFalse = true) :
    ∃ e w1 w', acceptBlock E ctx block w =
        .error (.error "AcceptBlock() : AddToBlockIndex failed") w' ∧ Ready E g w' tip ∧
      JustIndexed E w w1 block d e ∧ SameBlocks w1 w' := by
  obtain ⟨e, w1, hj, hr1, -, herr⟩ := acceptBlock_tries hctx hr ha htrust
  obtain ⟨s, w2, h2, hs⟩ := hfalse e w1 hj hr1
  obtain ⟨hr2, hs2⟩ := hr1.of_setBestChain_false hj.entry hj.prev hj.stored h2 hs
  exact ⟨e, w1, w2, herr s w2 h2 hs, hr2, hj, hs2⟩

end Espers
