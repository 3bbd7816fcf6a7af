import Espers.Chain.Links

/-!
# Coherence of the best chain

A node is *coherent* at a block when the committed transaction index is what connecting the path to
that block gives, the best-chain record names the block, and the links in memory are those of its
branch (`Coherent`).

* `reads_connectBlock`, `reads_disconnectBlock` : what one block does to the view of a handle.
* `InnerTrace.coherent`, `ReorgTrace.coherent` : a direct connection or a switch of branch that
  succeeds leads from a coherent state to a coherent state.
* `setBestChain_inv` : **so does `SetBestChain`**, if no postponed block fails to connect
  (`noPostponedFails`); `Inv` adds that the pointers name the block the state is coherent at.
* `setBestChain_inv_of_false` : where it returns `false`, the state stays coherent.
-/

namespace Espers

open Exec Option BlockMap List Forest

variable {E : Env} {ctx : Ctx} {g p q tip : Uint256} {w w' w1 w2 : World} {e : CBlockIndex}
  {block : CBlock} {D : CTxDB → CTxDB → Prop} {M : Set Uint256}

/-! ### What holds of the index throughout -/

/-- The transactions of all blocks in the files. -/
def BlockFiles.txs (fs : BlockFiles) : List CTransaction := fs.blocks.flatMap fun sb => sb.block.vtx

/-- The index is a tree, and every entry above genesis is that of a stored block. -/
structure Indexed (E : Env) (g : Uint256) (w : World) : Prop where
  tree : IndexTree w.mapBlockIndex g
  stored : ∀ p e q, w.mapBlockIndex.lookup p = some e → e.pprev = some q →
    ∃ block, Stored E w.files p q e block
  genesis : w.pindexGenesisBlock = some g

theorem Indexed.of_sameTree (h : Indexed E g w) (hs : SameTree w.mapBlockIndex w'.mapBlockIndex)
    (hf : w'.files = w.files) (hgen : w'.pindexGenesisBlock = w.pindexGenesisBlock) :
    Indexed E g w' := by
  refine ⟨hs.indexTree h.tree, fun p e' q he hq => ?_, hgen.trans h.genesis⟩
  obtain ⟨e, hm, hfix⟩ := hs.lookup he
  obtain ⟨b, hb⟩ := h.stored p e q hm ((CBlockIndex.fixed_pprev hfix).symm.trans hq)
  rw [hf]
  exact ⟨b, hb.mono hfix (.refl _)⟩

theorem Indexed.frame (h : Indexed E g w) (hf : Frame D M w w') : Indexed E g w' :=
  h.of_sameTree hf.sameTree hf.files hf.genesis

/-- The handle reads the view of the path to `p`. -/
def Reads (E : Env) (g : Uint256) (w : World) (p : Uint256) : Prop :=
  ∃ l, Chained E w.mapBlockIndex w.files g p l w.txdb.view

theorem Chained.frame {l : List CBlock} {v : View} (h : Chained E w.mapBlockIndex w.files g p l v)
    (hf : Frame D M w w') (hM : ∀ x ∈ M, ¬ Anc (parent w.mapBlockIndex) p x) :
    Chained E w'.mapBlockIndex w'.files g p l v := by
  rw [hf.files]
  refine h.mono (.refl _) hf.sameTree.grows fun x e hx he => ⟨e, ?_, rfl, rfl⟩
  rw [hf.untouched x fun hm => hM x hm hx]
  exact he

theorem Chained.mem_files {fs : BlockFiles} {m : BlockMap} {l : List CBlock} {v : View}
    (h : Chained E m fs g p l v) : ledger l ⊆ fs.txs := by
  induction h with
  | genesis => exact nil_subset _
  | block _ hc ih =>
    intro x hx
    rw [ledger_cons, mem_append, mem_reverse] at hx
    rcases hx with hx | hx
    · obtain ⟨sb, hsb, -, -, rfl⟩ := readBlock_eq_some hc.stored.read
      exact mem_flatMap.2 ⟨sb, hsb, hx⟩
    · exact ih hx

theorem Stored.mem_files {fs : BlockFiles} (h : Stored E fs p q e block) : block.vtx ⊆ fs.txs := by
  obtain ⟨sb, hsb, -, -, rfl⟩ := readBlock_eq_some h.read
  exact fun x hx => mem_flatMap.2 ⟨sb, hsb, hx⟩

theorem IndexTree.not_anc_child {m : BlockMap} (ht : IndexTree m g) (he : m.lookup p = some e)
    (hprev : e.pprev = some q) : ¬ Anc (parent m) q p := by
  intro h
  have := h.height_le ht.graded
  have := ht.graded (parent_eq_some.2 ⟨e, he, hprev⟩)
  omega

/-! ### One block -/

theorem readBlockFromDisk_eq_some (h : readBlockFromDisk E ctx w e = some block) :
    w.files.readBlock e.nFile e.nBlockPos = some block ∧ block.getHash E = e.hashBlock := by
  unfold readBlockFromDisk at h
  split_ifs at h
  cases hr : w.files.readBlock e.nFile e.nBlockPos with
  | none => rw [hr] at h; cases h
  | some b =>
    rw [hr] at h
    simp only at h
    split_ifs at h with h1 h2
    cases h
    exact ⟨rfl, not_not.1 h2⟩

/-- **Connecting a block** on the view of its parent gives the view of its own path. -/
theorem reads_connectBlock (hi : Indexed E g w) (hr : Reads E g w q)
    (hnc : NoCollision E w.files.txs) (he : w.mapBlockIndex.lookup p = some e)
    (hprev : e.pprev = some q) (hst : Stored E w.files p q e block)
    (h : connectBlock E ctx block p w = .ok () w') : Reads E g w' p := by
  obtain ⟨l, hch⟩ := hr
  obtain ⟨c⟩ := connectBlock_spec h
  have hframe : Frame BatchOnly {p} w w' := c.frame rfl
  obtain rfl : c.e = e := some.inj (c.entry.symm.trans he)
  have hfresh : Fresh E block.vtx w.txdb.view := by
    refine hch.fresh hi.tree c.sane he hprev hst.height c.spendable (hnc.subset ?_)
    intro x hx
    rw [ledger_cons, mem_append, mem_reverse] at hx
    rcases hx with hx | hx
    · exact hst.mem_files hx
    · exact hch.mem_files hx
  have hq' := hch.frame hframe (by
    rintro x rfl
    exact hi.tree.not_anc_child he hprev)
  have hfix : (c.e.minted c.prev c.t).fixed = c.e.fixed := rfl
  have hview : w'.txdb.view = blockView E c.e block w.txdb.view := c.view
  have htotal : totalUnspent w'.files.diskTx
    (blockView E (c.e.minted c.prev c.t) block w.txdb.view) =
      totalUnspent w.files.diskTx w.txdb.view -
        totalIn w.files.diskTx E c.e (firstTxPos c.e.nBlockPos block) block.vtx w.txdb.view +
        totalOut block.vtx := by
    rw [hframe.files, blockView_congr hfix, blockView,
      totalUnspent_connectTxs c.spendable hfresh c.sane.txs hst.located]
  refine ⟨block :: l, ?_⟩
  rw [hview, ← blockView_congr hfix]
  refine hq'.block ⟨c.entry', hprev, hst.mono hfix (by rw [hframe.files]; exact .refl _), c.sane,
    c.spendable.congr (CBlockIndex.fixed_txPos hfix), ?_, ?_⟩
  · -- the counter moves as the total of the view does
    obtain ⟨d, hd, hsup⟩ := hch.supply
    have hps : (c.prev.map CBlockIndex.nMoneySupply).getD 0 =
        wrap64 (totalUnspent w.files.diskTx w.txdb.view) := by
      rw [c.prev_eq, hprev, bind_some, hd, map_some, getD_some, hsup]
    rw [c.supply, hps, htotal, add_sub_assoc, wrap64_wrap_add, ← add_sub_assoc, add_sub_right_comm]
  · obtain ⟨subsidy, hsub, hle⟩ := c.minted_le
    refine ⟨ctx, w, w', subsidy, ⟨hframe.sameTree.grows, by rw [hframe.files]; exact .refl _, h⟩,
      rfl, hview.trans (blockView_congr hfix _).symm,
      (blockSubsidy_congr hfix ctx w block).trans hsub, ?_⟩
    rw [htotal, hframe.files]
    omega

section

variable (hi : Indexed E g w) (hr : Reads E g w p) (hnc : NoCollision E w.files.txs)
  (he : w.mapBlockIndex.lookup p = some e) (hprev : e.pprev = some q)
  (hrd : w.files.readBlock e.nFile e.nBlockPos = some block)
include hi hr hnc he hprev hrd

/-- **Disconnecting the last block** of a path succeeds and gives the view of the path to its
parent. -/
theorem disconnectBlock_ok :
    ∃ w', disconnectBlock E block p w = .ok () w' ∧ Reads E g w' q ∧
      w'.walletLog = w.walletLog ++ syncBlock block false := by
  obtain ⟨l, hch⟩ := hr
  generalize hv : w.txdb.view = v at hch
  cases hch with
  | genesis he' hp' =>
    obtain rfl := some.inj (he.symm.trans he')
    rw [hprev] at hp'
    cases hp'
  | @block _ q' e' b l v0 hq hc =>
    obtain rfl := some.inj (he.symm.trans hc.entry)
    obtain rfl := some.inj (hprev.symm.trans hc.prev)
    obtain rfl := some.inj (hrd.symm.trans hc.stored.read)
    have hfresh : Fresh E block.vtx v0 := by
      refine hq.fresh hi.tree hc.sane he hprev hc.stored.height hc.spendable (hnc.subset ?_)
      exact (hq.block hc).mem_files
    obtain ⟨d, hd, -⟩ := hi.tree.prev p e q he hprev
    have hpn : some d = e.pprev.bind fun q => w.mapBlockIndex.lookup q := by
      rw [hprev, bind_some, hd]
    obtain ⟨txdb, hrun, hview⟩ := disconnectBlock_undo hc.spendable hfresh hv he hpn fun _ => rfl
    refine ⟨_, hrun, ⟨l, ?_⟩, rfl⟩
    simp only [view_writeHashNext, hview]
    exact hq

theorem reads_disconnectBlock (h : disconnectBlock E block p w = .ok () w') : Reads E g w' q := by
  obtain ⟨w1, h1, hq, -⟩ := disconnectBlock_ok hi hr hnc he hprev hrd
  rw [h] at h1
  cases h1
  exact hq

end

/-! ### The loops of `Reorganize` -/

theorem readBlock_eq_ok {msg : String} (h : readBlock E ctx p msg w = .ok block w') :
    w' = w ∧ ∃ e, w.mapBlockIndex.lookup p = some e ∧ readBlockFromDisk E ctx w e = some block := by
  obtain ⟨e, w1, hd, hm⟩ := bind_eq_ok.1 h
  obtain ⟨he, rfl⟩ := deref_eq_ok.1 hd
  rw [get_bind_apply] at hm
  cases hb : readBlockFromDisk E ctx w1 e with
  | none => rw [hb] at hm; cases hm
  | some b =>
    rw [hb] at hm
    cases hm
    exact ⟨rfl, e, he, hb⟩

theorem reads_disconnectBranch {nReorgMax : ℤ} {ps : List Uint256} {acc r : List CTransaction}
    {b f : Uint256} (hi : Indexed E g w) (hr : Reads E g w b) (hnc : NoCollision E w.files.txs)
    (hd : Down (parent w.mapBlockIndex) b ps f)
    (h : disconnectBranch E ctx nReorgMax ps acc w = .ok r w') : Reads E g w' f := by
  induction ps generalizing acc w b with
  | nil =>
    cases hd
    cases h
    exact hr
  | cons x ps ih =>
    cases hd with
    | @cons _ c _ _ hpar hd =>
    obtain ⟨block, w1, h1, k1⟩ := bind_eq_ok.1 h
    obtain ⟨rfl, e, he, hrd⟩ := readBlock_eq_ok h1
    obtain ⟨_, w2, h2, k2⟩ := bind_eq_ok.1 k1
    rw [mapError_eq_ok] at h2
    obtain ⟨e2, w3, h3, k3⟩ := bind_eq_ok.1 k2
    obtain ⟨-, rfl⟩ := deref_eq_ok.1 h3
    have hframe : Frame BatchOnly ∅ w1 w3 := disconnectBlock_keeps.ok h2
    rw [parent_of_lookup he] at hpar
    have hr' := reads_disconnectBlock hi hr hnc he hpar (readBlockFromDisk_eq_some hrd).1 h2
    refine ih (hi.frame hframe) hr' (by rw [hframe.files]; exact hnc) ?_ k3
    rw [hframe.sameTree.parent]
    exact hd

theorem reads_connectOne (hi : Indexed E g w) (hr : Reads E g w q) (hnc : NoCollision E w.files.txs)
    (hpar : parent w.mapBlockIndex p = some q)
    (h : connectOne E ctx p w = .ok block w') : Reads E g w' p := by
  obtain ⟨b, w1, h1, k1⟩ := bind_eq_ok.1 h
  obtain ⟨rfl, e, he, hrd⟩ := readBlock_eq_ok h1
  obtain ⟨_, w2, h2, k2⟩ := bind_eq_ok.1 k1
  rw [mapError_eq_ok] at h2
  obtain ⟨e2, w3, h3, k3⟩ := bind_eq_ok.1 k2
  obtain ⟨-, rfl⟩ := deref_eq_ok.1 h3
  obtain ⟨_, w4, h4, k4⟩ := bind_eq_ok.1 k3
  obtain ⟨-, rfl⟩ := lift_eq_ok.1 h4
  obtain rfl : w3 = w' := by cases k4; rfl
  rw [parent_of_lookup he] at hpar
  obtain ⟨b', hst⟩ := hi.stored p e q he hpar
  obtain rfl : b' = b := some.inj (hst.read.symm.trans (readBlockFromDisk_eq_some hrd).1)
  exact reads_connectBlock hi hr hnc he hpar hst h2

theorem reads_connectBranch {ps : List Uint256} {acc r : List CTransaction} {f n : Uint256}
    (hi : Indexed E g w) (hr : Reads E g w f) (hnc : NoCollision E w.files.txs)
    (hu : Up (parent w.mapBlockIndex) f ps n)
    (h : connectBranch E ctx ps acc w = .ok r w') : Reads E g w' n := by
  induction ps generalizing acc w f with
  | nil =>
    cases hu
    cases h
    exact hr
  | cons x ps ih =>
    cases hu with
    | cons hpar hu =>
    obtain ⟨block, w1, h1, h⟩ := bind_eq_ok.1 h
    have hframe : Frame BatchOnly {x} w w1 := (connectOne_keeps (M := {x}) rfl).ok h1
    have hr' := reads_connectOne hi hr hnc hpar h1
    refine ih (hi.frame hframe) hr' (by rw [hframe.files]; exact hnc) ?_ h
    rw [hframe.sameTree.parent]
    exact hu

/-! ### Coherent states -/

/-- The committed database and the links are those of the path to `tip`. -/
structure Coherent (E : Env) (g : Uint256) (w : World) (tip : Uint256) : Prop
    extends Indexed E g w where
  reads : Reads E g w tip
  links : Links w.mapBlockIndex tip
  batch : w.txdb.activeBatch = none
  hashBest : w.txdb.pdb.lookup .hashBestChain = some tip

theorem Coherent.congr (h : Coherent E g w tip) (hm : w'.mapBlockIndex = w.mapBlockIndex)
    (hf : w'.files = w.files) (hdb : w'.txdb = w.txdb)
    (hgen : w'.pindexGenesisBlock = w.pindexGenesisBlock) : Coherent E g w' tip := by
  refine ⟨h.toIndexed.of_sameTree (hm ▸ SameTree.refl _) hf hgen, ?_, hm ▸ h.links, hdb ▸ h.batch,
    hdb ▸ h.hashBest⟩
  rw [Reads, hm, hf, hdb]
  exact h.reads

theorem Coherent.of_poolOnly (h : Coherent E g w tip) (hp : PoolOnly w w') :
    Coherent E g w' tip := by
  rw [hp.eq]
  exact h.congr rfl rfl rfl rfl

theorem view_begin (txdb : CTxDB) (h : txdb.activeBatch = none) :
    CTxDB.view txdb.begin = txdb.view := by
  funext k
  exact (Store.Db.read_begin _ _).trans (Store.Db.read_of_noBatch h _).symm

theorem view_commit (txdb : CTxDB) : CTxDB.view txdb.commit = txdb.view := by
  funext k
  exact Store.Db.read_commit _ _

theorem Frame.next (h : Frame D M w w') :
    next w'.mapBlockIndex = next w.mapBlockIndex := by
  funext p
  have hp := congrArg (fun o => o.bind CBlockIndex.pnext) (h.skeleton p)
  simpa [BlockMap.next, bind_map, Function.comp_def, CBlockIndex.skeleton] using hp

theorem Links.frame (h : Links w.mapBlockIndex tip) (hf : Frame D M w w') :
    Links w'.mapBlockIndex tip := by
  unfold Links
  rw [hf.next, hf.sameTree.parent]
  exact h

theorem Coherent.begin (h : Coherent E g w tip) :
    Indexed E g { w with txdb := w.txdb.begin } ∧ Reads E g { w with txdb := w.txdb.begin } tip ∧
      Links (World.mapBlockIndex { w with txdb := w.txdb.begin }) tip := by
  refine ⟨h.toIndexed.of_sameTree (.refl _) rfl rfl, ?_, h.links⟩
  obtain ⟨l, hl⟩ := h.reads
  refine ⟨l, ?_⟩
  rw [view_begin _ h.batch]
  exact hl

/-- Committing the best-chain record and switching the links ends in a coherent state. -/
theorem coherent_of_commit {f b n hash : Uint256} {vDisconnect vConnect : List Uint256}
    (hi : Indexed E g w) (hr : Reads E g w n) (hl : Links w.mapBlockIndex b) (hhash : hash = n)
    (hm : IsMeet (parent w.mapBlockIndex) f b n)
    (hd : Down (parent w.mapBlockIndex) b vDisconnect f)
    (hc : Down (parent w.mapBlockIndex) n vConnect.reverse f) :
    Coherent E g (World.relink { w with txdb := .commit (w.txdb.writeHashBestChain hash) }
      vDisconnect vConnect) n := by
  set w1 : World := { w with txdb := .commit (w.txdb.writeHashBestChain hash) } with hw1
  have hlo := relink_linksOnly w1 vDisconnect vConnect
  have hdb : (w1.relink vDisconnect vConnect).txdb = w1.txdb := by rw [hlo.eq]
  have hfiles : (w1.relink vDisconnect vConnect).files = w.files := by rw [hlo.eq]
  have hgen : (w1.relink vDisconnect vConnect).pindexGenesisBlock = w.pindexGenesisBlock := by
    rw [hlo.eq]
  refine ⟨hi.of_sameTree hlo.sameTree hfiles hgen, ?_, links_relink (w := w1) hi.tree hl hm hd hc,
    ?_, ?_⟩
  · obtain ⟨l, hch⟩ := hr
    refine ⟨l, ?_⟩
    have hv : w1.txdb.view = w.txdb.view := by
      rw [hw1, view_commit, view_writeHashBestChain]
    rw [hdb, hv, hfiles]
    refine hch.mono (.refl _) hlo.sameTree.grows fun x e _ he => ?_
    obtain ⟨e', he', hfix⟩ := hlo.sameTree.symm.lookup he
    have hs := hlo.supply x
    rw [he', show w1.mapBlockIndex.lookup x = some e from he] at hs
    exact ⟨e', he', hfix.symm, some.inj hs⟩
  · rw [hdb]
    rfl
  · rw [hdb, hw1, Store.Db.commit_pdb, ← hhash]
    exact Store.Db.read_write_self _ _ _

/-! ### Successful switches -/

theorem removeFromPool_keeps (tx : CTransaction) : Keeps PoolOnly (removeFromPool E tx) :=
  Keeps.bind Keeps.get fun _ => .bind (.lift _) fun _ => .modify fun _ => .of_pool _

theorem removeConflicts_keeps (tx : CTransaction) : Keeps PoolOnly (removeConflicts E tx) :=
  Keeps.bind Keeps.get fun _ => .bind (.lift _) fun _ => .modify fun _ => .of_pool _

theorem removeBlockFromPool_keeps (vtx : List CTransaction) :
    Keeps PoolOnly (removeBlockFromPool E vtx) := by
  induction vtx with
  | nil => exact .pure _
  | cons tx vtx ih => exact .bind (removeFromPool_keeps tx) fun _ => ih

theorem deleteFromPool_keeps (vtx : List CTransaction) : Keeps PoolOnly (deleteFromPool E vtx) := by
  induction vtx with
  | nil => exact .pure _
  | cons tx vtx ih =>
    exact .bind (removeFromPool_keeps tx) fun _ =>
      Keeps.bind (removeConflicts_keeps tx) fun _ => ih

theorem resurrect_keeps (vtx : List CTransaction) : Keeps PoolOnly (resurrect E ctx vtx) := by
  induction vtx with
  | nil => exact .pure _
  | cons tx vtx ih =>
    exact .bind (.attempt _ (acceptToMemoryPool_keeps E ctx tx false)) fun _ => ih

theorem txnCommit_eq_ok {fail : Stop} (h : txnCommit ctx fail w = .ok () w') :
    w' = { w with txdb := w.txdb.commit } ∧ ctx.commitFails w.txdb = false := by
  rcases txnCommit_cases ctx fail w with ⟨h', -, hc⟩ | ⟨h', -⟩ | ⟨h', -⟩
  · rw [h'] at h; cases h; exact ⟨rfl, hc⟩
  · rw [h'] at h; cases h
  · rw [h'] at h; cases h

/-- A successful run of `SetBestChainInner`. -/
structure InnerTrace (E : Env) (ctx : Ctx) (block : CBlock) (p : Uint256) (w w' : World) where
  /-- The state before the best-chain record is written. -/
  mid : World
  connected : connectBlock E ctx block p w = .ok () mid
  committed : ctx.commitFails (mid.txdb.writeHashBestChain (block.getHash E)) = false
  rest : PoolOnly (World.relink
    { mid with txdb := Store.Db.commit (mid.txdb.writeHashBestChain (block.getHash E)) } [] [p]) w'

theorem setBestChainInner_spec (h : setBestChainInner E ctx block p w = .ok () w') :
    Nonempty (InnerTrace E ctx block p w w') := by
  obtain ⟨connected, mid, h1, h⟩ := bind_eq_ok.1 h
  cases connected with
  | false =>
    obtain ⟨_, _, -, h⟩ := bind_eq_ok.1 h
    obtain ⟨_, _, -, h⟩ := bind_eq_ok.1 h
    cases h
  | true =>
    obtain ⟨_, h1⟩ := attempt_eq_true.1 h1
    simp only [Bool.not_true, Bool.false_eq_true, ↓reduceIte] at h
    rw [bind_of_ok (modifyDb_apply _ _)] at h
    obtain ⟨_, w2, h2, k2⟩ := bind_eq_ok.1 h
    obtain ⟨rfl, hc⟩ := txnCommit_eq_ok h2
    obtain ⟨e, w3, h3, k3⟩ := bind_eq_ok.1 k2
    obtain ⟨-, rfl⟩ := deref_eq_ok.1 h3
    obtain ⟨d, w4, h4, k4⟩ := bind_eq_ok.1 k3
    obtain ⟨-, rfl⟩ := deref_eq_ok.1 h4
    exact ⟨⟨mid, h1, hc, (removeBlockFromPool_keeps _).ok k4⟩⟩

/-- A successful run of `Reorganize`. -/
structure ReorgTrace (E : Env) (ctx : Ctx) (p : Uint256) (w w' : World) where
  plan : ReorgPlan
  vResurrect : List CTransaction
  vDelete : List CTransaction
  new : CBlockIndex
  /-- The states after the plan is made, after the one branch is disconnected, and after the other
  is connected. -/
  (w1 w2 w3 : World)
  planned : planReorganize ctx p w = .ok plan w1
  disconnected : disconnectBranch E ctx plan.nReorgMax plan.vDisconnect [] w1 = .ok vResurrect w2
  connected : connectBranch E ctx plan.vConnect [] w2 = .ok vDelete w3
  new_eq : w3.mapBlockIndex.lookup p = some new
  committed : ctx.commitFails (w3.txdb.writeHashBestChain new.hashBlock) = false
  rest : PoolOnly (World.relink
    { w3 with txdb := Store.Db.commit (w3.txdb.writeHashBestChain new.hashBlock) }
    plan.vDisconnect plan.vConnect) w'

theorem reorganize_spec (h : reorganize E ctx p w = .ok () w') :
    Nonempty (ReorgTrace E ctx p w w') := by
  obtain ⟨⟨plan, vr, vd⟩, w4, hs, h⟩ := bind_eq_ok.1 h
  obtain ⟨plan', w1, h1, hs⟩ := bind_eq_ok.1 hs
  obtain ⟨vr', w2, h2, hs⟩ := bind_eq_ok.1 hs
  obtain ⟨vd', w3, h3, hs⟩ := bind_eq_ok.1 hs
  obtain ⟨new, w3', hn, k⟩ := bind_eq_ok.1 hs
  obtain ⟨hn, hw⟩ := deref_eq_ok.1 hn
  rw [hw] at k
  cases k
  obtain ⟨_, w5, h5, k5⟩ := bind_eq_ok.1 h
  obtain ⟨rfl, hc⟩ := txnCommit_eq_ok h5
  obtain ⟨_, w6, h6, k6⟩ := bind_eq_ok.1 k5
  cases h6
  obtain ⟨_, w7, h7, k7⟩ := bind_eq_ok.1 k6
  exact ⟨⟨plan, vr, vd, new, w1, w2, w3, h1, h2, h3, hn, hc,
    IsTrans.trans _ _ _ ((resurrect_keeps _).ok h7) ((deleteFromPool_keeps _).ok k7)⟩⟩

theorem ReorgTrace.frame (t : ReorgTrace E ctx p w w') :
    Frame BatchOnly {q | q ∈ t.plan.vConnect} w t.w3 :=
  IsTrans.trans _ _ _ (.of_rollingOnly ((planReorganize_keeps ctx p).ok t.planned))
    (IsTrans.trans _ _ _ ((disconnectBranch_keeps _ _ _).ok t.disconnected)
      ((connectBranch_keeps (fun _ h => h) _).ok t.connected))

theorem ReorgTrace.best (t : ReorgTrace E ctx p w w') : w'.pindexBest = w.pindexBest := by
  rw [t.rest.eq, (relink_linksOnly _ _ _).eq]
  exact t.frame.best

theorem ReorgTrace.supply (t : ReorgTrace E ctx p w w') {x : Uint256} (hx : x ∉ t.plan.vConnect) :
    (w'.mapBlockIndex.lookup x).map CBlockIndex.nMoneySupply =
      (w.mapBlockIndex.lookup x).map CBlockIndex.nMoneySupply := by
  have hm := congrArg World.mapBlockIndex t.rest.eq
  rw [hm, ← t.frame.untouched x hx]
  exact (relink_linksOnly _ t.plan.vDisconnect t.plan.vConnect).supply x

/-- The tree and the files are the same. -/
structure SameBlocks (w w' : World) : Prop where
  tree : SameTree w.mapBlockIndex w'.mapBlockIndex
  files : w'.files = w.files

theorem SameBlocks.refl (w : World) : SameBlocks w w := ⟨.refl _, rfl⟩

theorem SameBlocks.trans (h1 : SameBlocks w w1) (h2 : SameBlocks w1 w2) : SameBlocks w w2 :=
  ⟨h1.tree.trans h2.tree, h2.files.trans h1.files⟩

theorem Frame.sameBlocks (h : Frame D M w w') : SameBlocks w w' := ⟨h.sameTree, h.files⟩

theorem LinksOnly.sameBlocks (h : LinksOnly w w') : SameBlocks w w' :=
  ⟨h.sameTree, by rw [h.eq]⟩

theorem PoolOnly.sameBlocks (h : PoolOnly w w') : SameBlocks w w' := by
  rw [h.eq]
  exact ⟨.refl _, rfl⟩

theorem SameBlocks.of_eq (hm : w'.mapBlockIndex = w.mapBlockIndex) (hf : w'.files = w.files) :
    SameBlocks w w' := ⟨hm ▸ SameTree.refl _, hf⟩

/-- The entry is above genesis and not on the branch of `tip`. -/
def OffBranch (w : World) (tip x : Uint256) : Prop :=
  ¬ Anc (parent w.mapBlockIndex) tip x ∧ ∃ c, parent w.mapBlockIndex x = some c

/-- Where a plan is made: the state it leaves, seen from the state before the batch was opened. -/
theorem planReorganize_begin {plan : ReorgPlan} (hc : Coherent E g w tip)
    (hb : w.pindexBest = some tip)
    (h : planReorganize ctx p { w with txdb := w.txdb.begin } = .ok plan w1) :
    Indexed E g w1 ∧ Reads E g w1 tip ∧ SameBlocks w w1 ∧ w1.walletLog = w.walletLog ∧
      Down (parent w.mapBlockIndex) tip plan.vDisconnect plan.pfork ∧
      Up (parent w.mapBlockIndex) plan.pfork plan.vConnect p ∧
      ∀ x ∈ plan.vConnect, OffBranch w tip x := by
  obtain ⟨hi, hr, -⟩ := hc.begin
  obtain ⟨c⟩ := planReorganize_spec h
  obtain rfl : c.pBest = tip := some.inj (c.pindexBest.symm.trans hb)
  have hf : Frame BatchOnly ∅ { w with txdb := w.txdb.begin } w1 :=
    Frame.of_rollingOnly ((planReorganize_keeps ctx p).ok h)
  have hm := congrArg World.mapBlockIndex c.final
  have hfl := congrArg World.files c.final
  have hdb := congrArg World.txdb c.final
  have hlog := congrArg World.walletLog c.final
  refine ⟨hi.frame hf, ?_, ⟨hf.sameTree, hf.files⟩, hlog, c.down, c.up,
    fun x hx => ⟨c.not_anc_of_mem_vConnect hi.tree hx, (c.up.anc_of_mem hx).2⟩⟩
  rw [Reads, hm, hfl, hdb]
  exact hr

/-- **Connecting a block directly.** -/
theorem InnerTrace.coherent (t : InnerTrace E ctx block p { w with txdb := w.txdb.begin } w')
    (hc : Coherent E g w q) (hnc : NoCollision E w.files.txs)
    (he : w.mapBlockIndex.lookup p = some e) (hprev : e.pprev = some q)
    (hst : Stored E w.files p q e block) : Coherent E g w' p ∧ SameBlocks w w' := by
  obtain ⟨hi, hr, hl⟩ := hc.begin
  have hframe : Frame BatchOnly {p} { w with txdb := w.txdb.begin } t.mid :=
    (connectBlock_keeps (M := {p}) rfl).ok t.connected
  have hpar : parent t.mid.mapBlockIndex p = some q := by
    rw [hframe.sameTree.parent]
    exact parent_eq_some.2 ⟨e, he, hprev⟩
  have hmeet : IsMeet (parent t.mid.mapBlockIndex) q q p :=
    ⟨Anc.refl q, Anc.of_parent hpar, fun _ h _ => h⟩
  have hdown : Down (parent t.mid.mapBlockIndex) p [p].reverse q :=
    .cons hpar (.nil q)
  have hcoh := coherent_of_commit (hi.frame hframe)
    (reads_connectBlock hi hr hnc he hprev hst t.connected)
    (Links.frame (w := { w with txdb := w.txdb.begin }) hl hframe) hst.hash hmeet (.nil q) hdown
  refine ⟨hcoh.of_poolOnly t.rest, ?_⟩
  refine (SameBlocks.trans ?_ (relink_linksOnly _ [] [p]).sameBlocks).trans t.rest.sameBlocks
  exact ⟨hframe.sameTree, hframe.files⟩

/-- **Switching to another branch.** -/
theorem ReorgTrace.coherent (t : ReorgTrace E ctx p { w with txdb := w.txdb.begin } w')
    (hc : Coherent E g w tip) (hb : w.pindexBest = some tip) (hnc : NoCollision E w.files.txs) :
    Coherent E g w' p ∧ SameBlocks w w' := by
  obtain ⟨hi, -, hl⟩ := hc.begin
  obtain ⟨c⟩ := planReorganize_spec t.planned
  obtain rfl : c.pBest = tip := some.inj (c.pindexBest.symm.trans hb)
  obtain ⟨hi1, hr1, hs1, -, -, -, -⟩ := planReorganize_begin hc hb t.planned
  have hf1 : Frame BatchOnly ∅ { w with txdb := w.txdb.begin } t.w1 :=
    Frame.of_rollingOnly ((planReorganize_keeps ctx p).ok t.planned)
  have hf2 : Frame BatchOnly ∅ t.w1 t.w2 := (disconnectBranch_keeps _ _ _).ok t.disconnected
  have hf3 : Frame BatchOnly {q | q ∈ t.plan.vConnect} t.w2 t.w3 :=
    (connectBranch_keeps (fun _ h => h) _).ok t.connected
  have hi2 := hi1.frame hf2
  have hs2 := hs1.trans hf2.sameBlocks
  have hs3 := hs2.trans hf3.sameBlocks
  have hr2 : Reads E g t.w2 t.plan.pfork :=
    reads_disconnectBranch hi1 hr1 (by rw [hs1.files]; exact hnc)
      (by rw [hs1.tree.parent]; exact c.down) t.disconnected
  have hr3 : Reads E g t.w3 p :=
    reads_connectBranch hi2 hr2 (by rw [hs2.files]; exact hnc) (by rw [hs2.tree.parent]; exact c.up)
      t.connected
  have hcoh := coherent_of_commit (hi2.frame hf3) hr3
    (((Links.frame (w := { w with txdb := w.txdb.begin }) hl hf1).frame hf2).frame hf3)
    ((hi2.frame hf3).tree.hash p t.new t.new_eq) (by rw [hs3.tree.parent]; exact c.meet hi.tree)
    (by rw [hs3.tree.parent]; exact c.down) (by rw [hs3.tree.parent]; exact c.downNew)
  refine ⟨hcoh.of_poolOnly t.rest, ?_⟩
  refine (SameBlocks.trans ?_ (relink_linksOnly _ _ _).sameBlocks).trans t.rest.sameBlocks
  exact ⟨hs3.tree, hs3.files⟩

/-! ### Postponed blocks -/

/-- Every postponed block is read and connected: the loop of `SetBestChain` over them runs to its
end. -/
def postponedConnect (E : Env) (ctx : Ctx) : List Uint256 → World → Bool
  | [], _ => true
  | p :: ps, w =>
    match w.mapBlockIndex.lookup p with
    | none => true
    | some e =>
      match readBlockFromDisk E ctx w e with
      | none => false
      | some block =>
        match setBestChainInner E ctx block p { w with txdb := w.txdb.begin } with
        | .ok _ w' => postponedConnect E ctx ps w'
        | .error e _ => !e.returnsFalse

/-- In a call of `SetBestChain` for `block`, filed under `p`, no postponed block fails to
connect. -/
def noPostponedFails (E : Env) (ctx : Ctx) (block : CBlock) (p : Uint256) (w : World) : Bool :=
  if block.hashPrevBlock = w.hashBestChain then true
  else
    match w.pindexBest.bind w.mapBlockIndex.lookup with
    | none => true
    | some best =>
      match postpone w.mapBlockIndex best.nChainTrust (height w.mapBlockIndex p + 1) p
        [] with
      | none => true
      | some (pindexIntermediate, vpindexSecondary) =>
        match reorganize E ctx pindexIntermediate { w with txdb := w.txdb.begin } with
        | .ok _ w' => postponedConnect E ctx vpindexSecondary w'
        | .error _ _ => true

theorem postpone_spec {m : BlockMap} {bestTrust : Uint256} {fuel : ℕ} {acc ps : List Uint256}
    {pI : Uint256} (h : postpone m bestTrust fuel p acc = some (pI, ps)) :
    ∃ us, ps = us ++ acc ∧ Up (parent m) pI us p := by
  induction fuel generalizing p acc with
  | zero => cases h
  | succ fuel ih =>
    rw [postpone] at h
    cases he : m.lookup p with
    | none => rw [he] at h; cases h
    | some e =>
      rw [he] at h
      simp only at h
      cases hq : e.pprev with
      | none => rw [hq] at h; cases h; exact ⟨[], rfl, .nil _⟩
      | some q =>
        rw [hq] at h
        simp only at h
        cases hd : m.lookup q with
        | none => rw [hd] at h; cases h
        | some d =>
          rw [hd] at h
          simp only at h
          split_ifs at h with hgt
          · obtain ⟨us, rfl, hup⟩ := ih h
            exact ⟨us ++ [p], by simp, hup.snoc (parent_eq_some.2 ⟨e, he, hq⟩)⟩
          · cases h; exact ⟨[], rfl, .nil _⟩

theorem txnBegin_eq_ok (h : txnBegin w = .ok () w') :
    w.txdb.activeBatch = none ∧ w' = { w with txdb := w.txdb.begin } := by
  unfold txnBegin at h
  rw [get_bind_apply] at h
  split_ifs at h with hs
  · cases h
  · cases h
    exact ⟨by simpa using hs, rfl⟩

/-- One turn of the loop over the postponed blocks, which stops at a block that fails. -/
theorem connectPostponed_cons_eq_ok {x : Uint256} {ps : List Uint256}
    (h : connectPostponed E ctx (x :: ps) w = .ok () w') :
    ∃ e, w.mapBlockIndex.lookup x = some e ∧ (readBlockFromDisk E ctx w e = none ∧ w' = w ∨
      ∃ block, readBlockFromDisk E ctx w e = some block ∧
        ((∃ s, setBestChainInner E ctx block x { w with txdb := w.txdb.begin } = .error s w' ∧
          s.returnsFalse = true) ∨
        ∃ w3, setBestChainInner E ctx block x { w with txdb := w.txdb.begin } = .ok () w3 ∧
          connectPostponed E ctx ps w3 = .ok () w')) := by
  obtain ⟨e, w1, hd, k⟩ := bind_eq_ok.1 h
  obtain ⟨he, rfl⟩ := deref_eq_ok.1 hd
  refine ⟨e, he, ?_⟩
  rw [get_bind_apply] at k
  cases hrd : readBlockFromDisk E ctx w1 e with
  | none =>
    rw [hrd] at k
    cases k
    exact .inl ⟨rfl, rfl⟩
  | some block =>
    rw [hrd] at k
    obtain ⟨_, w2, h2, k2⟩ := bind_eq_ok.1 k
    obtain ⟨-, rfl⟩ := txnBegin_eq_ok h2
    obtain ⟨connected, w3, h3, k3⟩ := bind_eq_ok.1 k2
    refine .inr ⟨block, rfl, ?_⟩
    cases connected with
    | false =>
      cases k3
      exact .inl (attempt_eq_false.1 h3)
    | true =>
      obtain ⟨_, h3⟩ := attempt_eq_true.1 h3
      exact .inr ⟨w3, h3, k3⟩

theorem connectPostponed_coherent {ps : List Uint256} (hc : Coherent E g w q)
    (hnc : NoCollision E w.files.txs) (hu : Up (parent w.mapBlockIndex) q ps p)
    (hall : postponedConnect E ctx ps w = true) (h : connectPostponed E ctx ps w = .ok () w') :
    Coherent E g w' p ∧ SameBlocks w w' := by
  induction ps generalizing w q with
  | nil =>
    cases hu
    cases h
    exact ⟨hc, .refl _⟩
  | cons x ps ih =>
    cases hu with
    | cons hpar hu =>
    obtain ⟨e, he, hturn⟩ := connectPostponed_cons_eq_ok h
    rw [postponedConnect, he] at hall
    simp only at hall
    rcases hturn with ⟨hrd, -⟩ | ⟨block, hrd, hinner⟩
    · rw [hrd] at hall
      cases hall
    rw [hrd] at hall
    rcases hinner with ⟨s, h3, hf⟩ | ⟨w3, h3, k3⟩
    · simp [h3, hf] at hall
    simp only [h3] at hall
    rw [parent_of_lookup he] at hpar
    obtain ⟨b, hst⟩ := hc.stored x e q he hpar
    obtain rfl := some.inj (hst.read.symm.trans (readBlockFromDisk_eq_some hrd).1)
    obtain ⟨t⟩ := setBestChainInner_spec h3
    obtain ⟨hc3, hs3⟩ := t.coherent hc hnc he hpar hst
    obtain ⟨hc', hs'⟩ := ih hc3 (by rw [hs3.files]; exact hnc)
      (by rw [hs3.tree.parent]; exact hu) hall k3
    exact ⟨hc', hs3.trans hs'⟩

/-! ### `SetBestChain` -/

/-- The state of a node between two calls: coherent at the best block, to which the pointers
point. -/
structure Inv (E : Env) (g : Uint256) (w : World) (tip : Uint256) : Prop
    extends Coherent E g w tip where
  best : w.pindexBest = some tip
  hashBestChain : w.hashBestChain = tip
  bestHeight : w.nBestHeight = height w.mapBlockIndex tip
  cache : ∀ p, w.pblockindexFBBHLast = some p → Anc (parent w.mapBlockIndex) tip p

theorem switchChain_eq_ok (h : switchChain E ctx p w = .ok () w') : ∃ best pI us w2,
    w.pindexBest.bind w.mapBlockIndex.lookup = some best ∧
    postpone w.mapBlockIndex best.nChainTrust (height w.mapBlockIndex p + 1) p [] =
      some (pI, us) ∧ Up (parent w.mapBlockIndex) pI us p ∧
    reorganize E ctx pI w = .ok () w2 ∧ connectPostponed E ctx us w2 = .ok () w' := by
  obtain ⟨best, w1, hb, k⟩ := bind_eq_ok.1 h
  obtain ⟨hbest, rfl⟩ := bestIndex_eq_ok.1 hb
  rw [get_bind_apply] at k
  cases hpost : postpone w1.mapBlockIndex best.nChainTrust
      (height w1.mapBlockIndex p + 1) p [] with
  | none => rw [hpost] at k; cases k
  | some r =>
    rw [hpost] at k
    obtain ⟨switched, w2, h2, k2⟩ := bind_eq_ok.1 k
    cases switched with
    | false =>
      obtain ⟨_, _, -, k2⟩ := bind_eq_ok.1 k2
      obtain ⟨_, _, -, k2⟩ := bind_eq_ok.1 k2
      cases k2
    | true =>
      obtain ⟨_, h2⟩ := attempt_eq_true.1 h2
      obtain ⟨us, hus, hup⟩ := postpone_spec hpost
      rw [append_nil] at hus
      exact ⟨best, r.1, us, w2, hbest, hus ▸ hpost, hup, h2, hus ▸ k2⟩

theorem switchChain_coherent (hc : Inv E g w tip) (hnc : NoCollision E w.files.txs)
    (hne : block.hashPrevBlock ≠ w.hashBestChain) (hall : noPostponedFails E ctx block p w = true)
    (h : switchChain E ctx p { w with txdb := w.txdb.begin } = .ok () w') :
    Coherent E g w' p ∧ SameBlocks w w' := by
  obtain ⟨best, pI, us, w2, hbest, hpost, hup, h2, k2⟩ := switchChain_eq_ok h
  rw [noPostponedFails, if_neg hne, show w.pindexBest.bind w.mapBlockIndex.lookup =
    some best from hbest] at hall
  simp only [show postpone w.mapBlockIndex _ _ _ _ = _ from hpost, h2] at hall
  obtain ⟨t⟩ := reorganize_spec h2
  obtain ⟨hc2, hs2⟩ := t.coherent hc.toCoherent hc.best hnc
  obtain ⟨hc', hs'⟩ := connectPostponed_coherent hc2 (by rw [hs2.files]; exact hnc)
    (by rw [hs2.tree.parent]; exact hup) hall k2
  exact ⟨hc', hs2.trans hs'⟩

theorem attachBlock_coherent (hc : Inv E g w tip) (hnc : NoCollision E w.files.txs)
    (he : w.mapBlockIndex.lookup p = some e) (hprev : e.pprev = some q)
    (hst : Stored E w.files p q e block) (hall : noPostponedFails E ctx block p w = true)
    (h : attachBlock E ctx block p { w with txdb := w.txdb.begin } = .ok () w') :
    Coherent E g w' p ∧ SameBlocks w w' := by
  unfold attachBlock at h
  rw [get_bind_apply] at h
  rw [if_neg (by simp [hc.genesis])] at h
  split_ifs at h with hd
  · rw [mapError_eq_ok] at h
    obtain ⟨t⟩ := setBestChainInner_spec h
    obtain rfl : q = tip := by rw [← hst.prev, hd, hc.hashBestChain]
    exact t.coherent hc.toCoherent hnc he hprev hst
  · exact switchChain_coherent hc hnc hd hall h

theorem newBestBlock_inv {hash : Uint256} (hc : Coherent E g w p) (hhash : hash = p)
    (h : newBestBlock hash p w = .ok () w') : Inv E g w' p ∧ SameBlocks w w' := by
  obtain ⟨new, w1, hn, k⟩ := bind_eq_ok.1 h
  obtain ⟨hn, rfl⟩ := deref_eq_ok.1 hn
  obtain ⟨_, w2, h2, k2⟩ := bind_eq_ok.1 k
  cases h2
  have hw' : w' = { w1 with
      hashBestChain := hash, pindexBest := some p, pblockindexFBBHLast := none
      nBestHeight := new.nHeight, nBestChainTrust := new.nChainTrust
      mempool := { w1.mempool with nTransactionsUpdated :=
        w1.mempool.nTransactionsUpdated + 1 } } := by
    split_ifs at k2 with hh
    · obtain ⟨_, w3, h3, k3⟩ := bind_eq_ok.1 k2
      obtain ⟨-, rfl⟩ := deref_eq_ok.1 h3
      cases k3
      rfl
    · cases k2
      rfl
  rw [hw']
  refine ⟨⟨hc.congr rfl rfl rfl rfl, rfl, hhash, ?_, fun q hq => by cases hq⟩, .of_eq rfl rfl⟩
  have hheight := height_of_lookup (m := w1.mapBlockIndex) hn
  simp only
  omega

/-- **`SetBestChain` leads from a coherent state to a coherent state**, if no postponed block fails
to connect. -/
theorem setBestChain_inv (hc : Inv E g w tip) (hnc : NoCollision E w.files.txs)
    (he : w.mapBlockIndex.lookup p = some e) (hprev : e.pprev = some q)
    (hst : Stored E w.files p q e block) (hall : noPostponedFails E ctx block p w = true)
    (h : setBestChain E ctx block p w = .ok () w') : Inv E g w' p ∧ SameBlocks w w' := by
  obtain ⟨_, w1, h1, k⟩ := bind_eq_ok.1 h
  obtain ⟨-, rfl⟩ := txnBegin_eq_ok h1
  obtain ⟨_, w2, h2, k2⟩ := bind_eq_ok.1 k
  obtain ⟨hc2, hs2⟩ := attachBlock_coherent hc hnc he hprev hst hall h2
  obtain ⟨hc', hs'⟩ := newBestBlock_inv hc2 hst.hash k2
  exact ⟨hc', hs2.trans hs'⟩

theorem Coherent.of_storeKept (hc : Coherent E g w tip) (hf : Frame StoreKept M w w')
    (hbatch : w'.txdb.activeBatch = none)
    (hoff : ∀ x ∈ M, ¬ Anc (parent w.mapBlockIndex) tip x) :
    Coherent E g w' tip := by
  have hview : w'.txdb.view = w.txdb.view := by
    funext k
    have h1 := Store.Db.read_of_noBatch hbatch (.tx k)
    have h2 := Store.Db.read_of_noBatch hc.batch (.tx k)
    exact h1.trans ((hf.db.lookup (.tx k) (by simp)).trans h2.symm)
  obtain ⟨l, hl⟩ := hc.reads
  refine ⟨hc.toIndexed.frame hf, ⟨l, ?_⟩, hc.links.frame hf, hbatch, ?_⟩
  · rw [hview]
    exact hl.frame hf hoff
  · rw [hf.db.lookup _ (by simp)]
    exact hc.hashBest

/-- **Where `SetBestChain` returns `false`, the state stays coherent at the same block.** -/
theorem setBestChain_inv_of_false {s : Stop} (hc : Inv E g w tip)
    (he : w.mapBlockIndex.lookup p = some e) (hprev : e.pprev = some q)
    (hst : Stored E w.files p q e block) (h : setBestChain E ctx block p w = .error s w')
    (hs : s.returnsFalse = true) : Inv E g w' tip ∧ SameBlocks w w' := by
  obtain ⟨⟨M, hM, hf⟩, hbatch⟩ := setBestChain_false h hs
  have hoff : ∀ x ∈ M, ¬ Anc (parent w.mapBlockIndex) tip x := by
    rcases hM with hM | ⟨rfl, hd⟩
    · exact hM g tip hc.tree hc.best
    · obtain rfl : q = tip := by rw [← hst.prev, hd, hc.hashBestChain]
      rintro x rfl
      exact hc.tree.not_anc_child he hprev
  obtain ⟨l, hl⟩ := hc.reads
  refine ⟨⟨hc.toCoherent.of_storeKept hf hbatch hoff, ?_, ?_, ?_, ?_⟩, hf.sameBlocks⟩
  · rw [hf.best]; exact hc.best
  · rw [hf.hashBest]; exact hc.hashBestChain
  · rw [hf.bestHeight, hf.sameTree.height]; exact hc.bestHeight
  · rw [hf.sameTree.parent]
    exact hf.cache _ (linkClosed_of_links hc.tree hc.links hc.best hl.lookup_isSome hc.genesis)
      hc.cache

end Espers
