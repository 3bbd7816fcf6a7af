import Espers.Chain.Coherence

/-!
# Accepting blocks

A block that is accepted is written to the files, gets an entry in the index, and becomes the best
block if its branch has more trust than the best chain.

* `Inv.insert`, `Inv.files` : a new entry and a longer file keep the node coherent.
* `acceptBlock_returns` : **a call of `AcceptBlock` that returns leaves a coherent state**, whether
  it succeeds or not, if no postponed block fails to connect (`acceptNoPostponedFails`).
* `loadGenesis_inv` : the first start, with an empty database.
-/

namespace Espers

open Exec AList BlockMap Forest
open Option (some)

variable {E : Env} {ctx : Ctx} {g p q tip hash : Uint256} {w w' w1 : World} {e d : CBlockIndex}
  {block : CBlock}

/-! ### A new entry of the index -/

section Insert

variable {m : BlockMap}

theorem lookup_insert_of_some {x : Uint256} (hn : m.lookup hash = none) (hx : m.lookup x = some d)
    (e : CBlockIndex) : (m.insert hash e).lookup x = some d := by
  rw [lookup_insert_ne (by rintro rfl; rw [hn] at hx; cases hx)]
  exact hx

theorem IndexTree.insert (ht : IndexTree m g) (hn : m.lookup hash = none) (hh : e.hashBlock = hash)
    (hq : e.pprev = some q) (hd : m.lookup q = some d) (hheight : e.nHeight = d.nHeight + 1) :
    IndexTree (m.insert hash e) g := by
  refine ⟨fun p e' he => ?_, fun p e' r he hr => ?_, fun p e' he hr => ?_⟩
  · rcases eq_or_ne p hash with rfl | hp
    · rw [lookup_insert, some.injEq] at he
      exact he ▸ hh
    · rw [lookup_insert_ne hp] at he
      exact ht.hash p e' he
  · rcases eq_or_ne p hash with rfl | hp
    · rw [lookup_insert, some.injEq] at he
      subst he
      obtain rfl := some.inj (hq.symm.trans hr)
      exact ⟨d, lookup_insert_of_some hn hd e, hheight⟩
    · rw [lookup_insert_ne hp] at he
      obtain ⟨c, hc, hch⟩ := ht.prev p e' r he hr
      exact ⟨c, lookup_insert_of_some hn hc e, hch⟩
  · rcases eq_or_ne p hash with rfl | hp
    · rw [lookup_insert, some.injEq] at he
      subst he
      rw [hq] at hr
      cases hr
    · rw [lookup_insert_ne hp] at he
      exact ht.root_eq p e' he hr

theorem parent_insert_ne {x : Uint256} (hx : x ≠ hash) (e : CBlockIndex) :
    parent (m.insert hash e) x = parent m x := by
  simp [parent, lookup_insert_ne hx]

theorem anc_insert_iff (ht : IndexTree m g) (hn : m.lookup hash = none)
    (htip : (m.lookup tip).isSome) (e : CBlockIndex) {x : Uint256} :
    Anc (parent (m.insert hash e)) tip x ↔
    Anc (parent m) tip x := by
  have hne : ∀ a, (m.lookup a).isSome → a ≠ hash := by
    rintro a ha rfl
    rw [hn] at ha
    cases ha
  constructor
  · refine fun h => .of_mono (P := fun a => (m.lookup a).isSome)
      (fun a ha => parent_insert_ne (hne a ha) e) (fun a b ha hab => ?_) htip h
    exact ht.mem_of_anc (.of_parent hab) ha
  · refine fun h => h.mono fun a b hab => ?_
    obtain ⟨c, hc, -⟩ := parent_eq_some.1 hab
    rw [parent_insert_ne (hne a (by simp [hc]))]
    exact hab

theorem Links.insert (hl : Links m tip) (ht : IndexTree m g) (hn : m.lookup hash = none)
    (htip : (m.lookup tip).isSome) (hnext : e.pnext = none) : Links (m.insert hash e) tip := by
  intro a b
  rw [anc_insert_iff ht hn htip]
  have hab : next (m.insert hash e) a = next m a := by
    rcases eq_or_ne a hash with rfl | ha
    · simp [next, hnext, hn]
    · simp [next, lookup_insert_ne ha]
  rw [hab]
  rcases eq_or_ne b hash with rfl | hb
  · -- the new entry is on no old branch
    have hno : ¬ Anc (parent m) tip b := by
      intro h
      have := ht.mem_of_anc h htip
      rw [hn] at this
      cases this
    rw [hl a b]
    simp [hno]
  · rw [hl a b, parent_insert_ne hb]

end Insert

variable {txdb : CTxDB}

/-- A node stays coherent when a stored block gets an entry in the index. -/
theorem Inv.insert (hc : Inv E g w tip) (hn : w.mapBlockIndex.lookup hash = none)
    (hh : e.hashBlock = hash) (hq : e.pprev = some q) (hd : w.mapBlockIndex.lookup q = some d)
    (hheight : e.nHeight = d.nHeight + 1) (hnext : e.pnext = none)
    (hst : Stored E w.files hash q e block) {stakeSeen : List (COutPoint × ℕ)}
    (hb : txdb.activeBatch = none) (hv : txdb.view = w.txdb.view)
    (hrec : txdb.pdb.lookup .hashBestChain = some tip) :
    Inv E g { w with
      mapBlockIndex := w.mapBlockIndex.insert hash e, setStakeSeen := stakeSeen, txdb :=
        txdb } tip := by
  obtain ⟨l, hl⟩ := hc.reads
  have htip := hl.lookup_isSome
  obtain ⟨t, ht⟩ := Option.isSome_iff_exists.1 htip
  refine ⟨⟨⟨hc.tree.insert hn hh hq hd hheight, fun p e' r he hr => ?_, hc.genesis⟩, ⟨l, ?_⟩,
    hc.links.insert hc.tree hn htip hnext, hb, hrec⟩, hc.best, hc.hashBestChain, ?_, fun p hp => ?_⟩
  · rcases eq_or_ne p hash with rfl | hp
    · rw [lookup_insert, some.injEq] at he
      subst he
      obtain rfl := some.inj (hq.symm.trans hr)
      exact ⟨block, hst⟩
    · rw [lookup_insert_ne hp] at he
      exact hc.stored p e' r he hr
  · simp only [hv]
    exact hl.mono (.refl _) (fun x c hx => ⟨c, lookup_insert_of_some hn hx e, rfl⟩)
      fun x c _ hx => ⟨c, lookup_insert_of_some hn hx e, rfl, rfl⟩
  · have h1 := height_of_lookup ht
    have h2 := height_of_lookup (lookup_insert_of_some hn ht e)
    have h3 := hc.bestHeight
    simp only
    omega
  · exact (anc_insert_iff hc.tree hn htip e).2 (hc.cache p hp)

theorem Inv.files (hc : Inv E g w tip) {fs : BlockFiles} (hg : w.files.Grows fs) :
    Inv E g { w with files := fs } tip := by
  obtain ⟨l, hl⟩ := hc.reads
  refine ⟨⟨⟨hc.tree, fun p e q he hq => ?_, hc.genesis⟩, ⟨l, ?_⟩, hc.links, hc.batch, hc.hashBest⟩,
    hc.best, hc.hashBestChain, hc.bestHeight, hc.cache⟩
  · obtain ⟨b, hb⟩ := hc.stored p e q he hq
    exact ⟨b, hb.mono rfl hg⟩
  · exact hl.mono hg (.refl _) fun x e _ hx => ⟨e, hx, rfl, rfl⟩

/-! ### `AddToBlockIndex` -/

theorem CTxDB.fresh_of_noBatch (h : txdb.activeBatch = none) : Store.Db.fresh txdb = txdb := by
  cases txdb
  cases h
  rfl

theorem writeBlockIndex_begin (txdb : CTxDB) (d : CDiskBlockIndex) :
    (CTxDB.writeBlockIndex E txdb.begin d).pdb = txdb.pdb ∧
      (CTxDB.writeBlockIndex E txdb.begin d).activeBatch.isSome :=
  Store.Db.write_pdb rfl _ _

/-- The index with the entry of a new block. -/
def World.withEntry (w : World) (hash : Uint256) (e : CBlockIndex) (txdb : CTxDB) : World :=
  { w with
    mapBlockIndex := w.mapBlockIndex.insert hash e
    setStakeSeen := if e.isProofOfStake then (e.prevoutStake, e.nStakeTime) :: w.setStakeSeen
      else w.setStakeSeen
    txdb := txdb }

/-- The entry of a new block is made, and its record is committed or, when the database cannot be
written, dropped. -/
def EntryMade (E : Env) (ctx : Ctx) (block : CBlock) (nFile nBlockPos : ℕ) (hashProof : Uint256)
    (w : World) (hfile : nFile < uintMax) (modifier : ℕ × Bool) : Prop :=
  let e := newIndexEntry E ctx w block nFile nBlockPos hashProof hfile modifier
  let txdb := .writeBlockIndex E w.txdb.begin (.ofIndex e)
  ctx.commitFails txdb = false ∧ indexBlock E ctx block nFile nBlockPos hashProof w =
      .ok () (w.withEntry (block.getHash E) e txdb.commit) ∨
    ctx.commitFails txdb = true ∧ indexBlock E ctx block nFile nBlockPos hashProof w =
      .error .refuse (w.withEntry (block.getHash E) e txdb.abort)

theorem fresh_ok (hb : w.txdb.activeBatch = none) :
    (modify (fun w : World => { w with txdb := .fresh w.txdb }) : Node Unit) w = .ok () w := by
  rw [modify_apply, CTxDB.fresh_of_noBatch hb]

/-- The first half of `AddToBlockIndex` for a block that is not in the index yet. -/
theorem indexBlock_eq {nFile : ℕ} (nBlockPos : ℕ) (hashProof : Uint256) {modifier : ℕ × Bool}
    (hb : w.txdb.activeBatch = none) (hn : w.mapBlockIndex.lookup (block.getHash E) = none)
    (hmod : ctx.computeNextStakeModifier ((w.mapBlockIndex.lookup block.hashPrevBlock).map fun _ =>
      block.hashPrevBlock) = some modifier) (hfile : nFile < uintMax) :
    EntryMade E ctx block nFile nBlockPos hashProof w hfile modifier := by
  unfold EntryMade indexBlock
  rw [bind_of_ok (fresh_ok hb), bind_apply]
  simp only [get_apply]
  rw [bind_of_ok (t := w) (a := ()) (by simp [rejectIf, hn]), hmod]
  simp only [dif_pos hfile]
  set e := newIndexEntry E ctx w block nFile nBlockPos hashProof hfile modifier
  have hbegin : txnBegin (w.withEntry (block.getHash E) e w.txdb) =
      .ok () (w.withEntry (block.getHash E) e w.txdb.begin) := by
    unfold txnBegin
    rw [get_bind_apply]
    rw [if_neg (by simp [World.withEntry, hb])]
    rfl
  have hset : (set (w.withEntry (block.getHash E) e w.txdb) : Node Unit) w =
      .ok () (w.withEntry (block.getHash E) e w.txdb) := rfl
  have hwrite : modifyDb (fun txdb => txdb.writeBlockIndex E (.ofIndex e))
      (w.withEntry (block.getHash E) e w.txdb.begin) = .ok ()
        (w.withEntry (block.getHash E) e (.writeBlockIndex E w.txdb.begin (.ofIndex e))) := rfl
  have hrun := bind_of_ok hset (f := fun _ => (do
    txnBegin
    modifyDb fun txdb => txdb.writeBlockIndex E (.ofIndex e)
    txnCommit ctx .refuse : Node Unit))
  rw [bind_of_ok hbegin, bind_of_ok hwrite] at hrun
  rcases txnCommit_cases ctx .refuse (w.withEntry (block.getHash E) e
    (.writeBlockIndex E w.txdb.begin (.ofIndex e))) with ⟨h, -, hc⟩ | ⟨h, hc⟩ | ⟨-, hbad⟩
  · exact .inl ⟨hc, hrun.trans h⟩
  · exact .inr ⟨hc, hrun.trans h⟩
  · have hsome := (writeBlockIndex_begin (E := E) w.txdb (.ofIndex e)).2
    rw [show (CTxDB.writeBlockIndex E w.txdb.begin (.ofIndex e)).activeBatch =
      none from hbad] at hsome
    cases hsome

/-- How the first half of `AddToBlockIndex` ends: nothing happens, or it goes on to make the
entry. -/
theorem indexBlock_cases (E : Env) (ctx : Ctx) (block : CBlock) (nFile nBlockPos : ℕ)
    (hashProof : Uint256) (hb : w.txdb.activeBatch = none) :
    (∃ s, indexBlock E ctx block nFile nBlockPos hashProof w = .error s w) ∨
    ∃ modifier hfile, w.mapBlockIndex.lookup (block.getHash E) = none ∧
      ctx.computeNextStakeModifier ((w.mapBlockIndex.lookup block.hashPrevBlock).map fun _ =>
        block.hashPrevBlock) = some modifier ∧
      EntryMade E ctx block nFile nBlockPos hashProof w hfile modifier := by
  have hstart := fresh_ok hb
  cases hn : w.mapBlockIndex.lookup (block.getHash E) with
  | some e =>
    refine .inl ⟨.error "AddToBlockIndex() : already exists", ?_⟩
    rw [indexBlock, bind_of_ok hstart, bind_apply]
    exact bind_of_error (by simp [rejectIf, hn])
  | none =>
    have hskip : (lift (rejectIf (w.mapBlockIndex.lookup (block.getHash E)).isSome
        (.error "AddToBlockIndex() : already exists")) : Node Unit) w = .ok () w := by
      simp [rejectIf, hn]
    cases hmod : ctx.computeNextStakeModifier
      ((w.mapBlockIndex.lookup block.hashPrevBlock).map fun _ =>
        block.hashPrevBlock) with
    | none =>
      refine .inl ⟨.error "AddToBlockIndex() : ComputeNextStakeModifier() failed", ?_⟩
      rw [indexBlock, bind_of_ok hstart, get_bind_apply]
      rw [bind_of_ok hskip, hmod]
      rfl
    | some modifier =>
      by_cases hfile : nFile < uintMax
      · exact .inr ⟨modifier, hfile, rfl, rfl, indexBlock_eq nBlockPos hashProof hb hn hmod hfile⟩
      · refine .inl ⟨.crash "no block file left", ?_⟩
        rw [indexBlock, bind_of_ok hstart, get_bind_apply]
        rw [bind_of_ok hskip, hmod]
        simp only [dif_neg hfile]
        rfl

/-- What holds of a block that has just been written to the files, below its parent in the index. -/
structure JustStored (w : World) (block : CBlock) (nFile nBlockPos : ℕ) (d : CBlockIndex) :
    Prop where
  parent : w.mapBlockIndex.lookup block.hashPrevBlock = some d
  read : w.files.readBlock nFile nBlockPos = some block
  located : ∀ e : CBlockIndex, e.nFile = nFile → e.nBlockPos = nBlockPos →
    Located w.files.diskTx e (firstTxPos e.nBlockPos block) block.vtx
  height : pushInt (d.nHeight + 1) <+: block.coinbaseScript

variable {nFile nBlockPos : ℕ}

theorem JustStored.entry (E : Env) (ctx : Ctx) (hashProof : Uint256)
    (modifier : ℕ × Bool) (hfile : nFile < uintMax) (hjs : JustStored w block nFile nBlockPos d) :
    (newIndexEntry E ctx w block nFile nBlockPos hashProof hfile modifier).pprev =
        some block.hashPrevBlock ∧
      (newIndexEntry E ctx w block nFile nBlockPos hashProof hfile modifier).nHeight =
        d.nHeight + 1 ∧
      Stored E w.files (block.getHash E) block.hashPrevBlock
        (newIndexEntry E ctx w block nFile nBlockPos hashProof hfile modifier) block := by
  have hheight : (newIndexEntry E ctx w block nFile nBlockPos hashProof hfile modifier).nHeight =
      d.nHeight + 1 := by simp [newIndexEntry, hjs.parent]
  refine ⟨by simp [newIndexEntry, hjs.parent], hheight, hjs.read,
    hjs.located _ rfl rfl, rfl, rfl, ?_⟩
  rw [hheight]
  exact hjs.height

variable {hashProof : Uint256}

section

variable (hc : Inv E g w tip) (hjs : JustStored w block nFile nBlockPos d)
include hc hjs

theorem Inv.withEntry {modifier : ℕ × Bool} {hfile : nFile < uintMax}
    (hn : w.mapBlockIndex.lookup (block.getHash E) = none) (hb : txdb.activeBatch = none)
    (hv : txdb.view = w.txdb.view) (hrec : txdb.pdb.lookup .hashBestChain = some tip) :
    Inv E g (w.withEntry (block.getHash E)
      (newIndexEntry E ctx w block nFile nBlockPos hashProof hfile modifier) txdb) tip := by
  obtain ⟨hp, hh, hst⟩ := hjs.entry E ctx hashProof modifier hfile
  exact hc.insert hn rfl hp hjs.parent hh rfl hst hb hv hrec

theorem indexBlock_inv (h : indexBlock E ctx block nFile nBlockPos hashProof w = .ok () w') :
    Inv E g w' tip ∧ ∃ e, w'.mapBlockIndex.lookup (block.getHash E) = some e ∧
      e.pprev = some block.hashPrevBlock ∧
      Stored E w'.files (block.getHash E) block.hashPrevBlock e block := by
  rcases indexBlock_cases E ctx block nFile nBlockPos hashProof hc.batch with ⟨s, hs⟩ | ⟨modifier,
    hfile, hn, -, hr⟩
  · rw [hs] at h; cases h
  · rcases hr with ⟨-, hr⟩ | ⟨-, hr⟩
    · rw [hr] at h
      cases h
      obtain ⟨hp, -, hst⟩ := hjs.entry E ctx hashProof modifier hfile
      refine ⟨hc.withEntry hjs hn rfl ?_ ?_, _, lookup_insert _, hp, hst⟩
      · rw [view_commit, view_writeBlockIndex, view_begin _ hc.batch]
      · rw [Store.Db.commit_pdb]
        exact (Store.Db.read_write_ne _ _ (by simp)).trans hc.hashBest
    · rw [hr] at h; cases h

theorem indexBlock_inv_of_false {s : Stop}
    (h : indexBlock E ctx block nFile nBlockPos hashProof w = .error s w') : Inv E g w' tip := by
  rcases indexBlock_cases E ctx block nFile nBlockPos hashProof hc.batch with ⟨s, hs⟩ | ⟨modifier,
    hfile, hn, -, hr⟩
  · rw [hs] at h; cases h; exact hc
  · rcases hr with ⟨-, hr⟩ | ⟨-, hr⟩
    · rw [hr] at h; cases h
    · rw [hr] at h
      cases h
      have hpdb := (writeBlockIndex_begin (E := E) w.txdb (.ofIndex
        (newIndexEntry E ctx w block nFile nBlockPos hashProof hfile modifier))).1
      refine hc.withEntry hjs hn rfl ?_ ?_
      · funext k
        exact (Store.Db.read_of_noBatch hc.batch _).symm
      · rw [Store.Db.abort_pdb, hpdb]
        exact hc.hashBest

end

/-! ### Calls that return -/

/-- The call returns, with `true` or `false`, and leaves the state `w'`. -/
def Returns {α : Type} (x : Node α) (w w' : World) : Prop :=
  (∃ a, x w = .ok a w') ∨ ∃ s, x w = .error s w' ∧ s.returnsFalse = true

section Returns

variable {α β : Type} {x : Node α} {f : α → Node β}

theorem returns_bind (h : Returns (x >>= f) w w') :
    (∃ s, x w = .error s w' ∧ s.returnsFalse = true) ∨ ∃ a t, x w = .ok a t ∧
    Returns (f a) t w' := by
  rcases h with ⟨b, h⟩ | ⟨s, h, hs⟩
  · obtain ⟨a, t, hx, hf⟩ := bind_eq_ok.1 h
    exact .inr ⟨a, t, hx, .inl ⟨b, hf⟩⟩
  · rcases bind_eq_error.1 h with h | ⟨a, t, hx, hf⟩
    · exact .inl ⟨s, h, hs⟩
    · exact .inr ⟨a, t, hx, .inr ⟨s, hf, hs⟩⟩

theorem returns_of_mapError {own : Stop} (h : Returns (mapError own.report x) w w') :
    Returns x w w' := by
  rcases h with ⟨a, h⟩ | ⟨s, h, hs⟩
  · exact .inl ⟨a, mapError_eq_ok.1 h⟩
  · obtain ⟨s', h', rfl⟩ := mapError_eq_error.1 h
    exact .inr ⟨s', h', Stop.returnsFalse_of_report hs⟩

theorem Keeps.returns {R : World → World → Prop} (h : Keeps R x) (hx : Returns x w w') :
    R w w' := by
  rcases hx with ⟨a, hx⟩ | ⟨s, hx, -⟩
  · exact h.ok hx
  · exact h.error hx

end Returns

theorem Inv.congr (h : Inv E g w tip) (hm : w'.mapBlockIndex = w.mapBlockIndex)
    (hf : w'.files = w.files) (hdb : w'.txdb = w.txdb)
    (hgen : w'.pindexGenesisBlock = w.pindexGenesisBlock) (hb : w'.pindexBest = w.pindexBest)
    (hh : w'.hashBestChain = w.hashBestChain) (hn : w'.nBestHeight = w.nBestHeight)
    (hl : w'.pblockindexFBBHLast = w.pblockindexFBBHLast) : Inv E g w' tip := by
  refine ⟨h.toCoherent.congr hm hf hdb hgen, hb.trans h.best, hh.trans h.hashBestChain, ?_, ?_⟩
  · rw [hn, hm]; exact h.bestHeight
  · rw [hl, hm]; exact h.cache

theorem Inv.of_rollingOnly (h : Inv E g w tip) (hr : RollingOnly w w') : Inv E g w' tip := by
  rw [hr.eq]
  exact h.congr rfl rfl rfl rfl rfl rfl rfl rfl

theorem Inv.of_poolOnly (h : Inv E g w tip) (hp : PoolOnly w w') : Inv E g w' tip := by
  rw [hp.eq]
  exact h.congr rfl rfl rfl rfl rfl rfl rfl rfl

theorem Inv.of_sizesOnly (h : Inv E g w tip) (hs : SizesOnly w w') : Inv E g w' tip := by
  have hcache := hs.cache _ (linkClosed_of_links h.tree h.links h.best
    (by obtain ⟨l, hl⟩ := h.reads; exact hl.lookup_isSome) h.genesis) h.cache
  rw [hs.eq] at hcache ⊢
  exact ⟨h.toCoherent.congr rfl rfl rfl rfl, h.best, h.hashBestChain, h.bestHeight, hcache⟩

theorem setBestChain_returns (hc : Inv E g w tip) (hnc : NoCollision E w.files.txs)
    (he : w.mapBlockIndex.lookup p = some e) (hprev : e.pprev = some q)
    (hst : Stored E w.files p q e block) (hall : noPostponedFails E ctx block p w = true)
    (h : Returns (setBestChain E ctx block p) w w') : ∃ tip', Inv E g w' tip' := by
  rcases h with ⟨_, h⟩ | ⟨s, h, hs⟩
  · exact ⟨p, (setBestChain_inv hc hnc he hprev hst hall h).1⟩
  · exact ⟨tip, (setBestChain_inv_of_false hc he hprev hst h hs).1⟩

/-! ### The files -/

/-- The files are the same. -/
def SameFiles (w w' : World) : Prop := w'.files = w.files

instance : IsPreorder World SameFiles where
  refl _ := rfl
  trans _ _ _ h1 h2 := Eq.trans h2 h1

instance : IsPreorder World SameBlocks where
  refl := SameBlocks.refl
  trans _ _ _ := SameBlocks.trans

theorem txnBegin_sameBlocks : Keeps SameBlocks txnBegin := by
  intro w
  unfold txnBegin
  rw [get_bind_apply]
  split_ifs <;> exact .of_eq rfl rfl

theorem txnCommit_sameBlocks (fail : Stop) : Keeps SameBlocks (txnCommit ctx fail) := by
  intro w
  rcases txnCommit_cases ctx fail w with ⟨h, -⟩ | ⟨h, -⟩ | ⟨h, -⟩ <;> rw [h]
    <;> exact .of_eq rfl rfl

theorem setBestChainInner_sameBlocks : Keeps SameBlocks (setBestChainInner E ctx block p) := by
  have hconnect : Keeps SameBlocks (connectBlock E ctx block p) :=
    (connectBlock_keeps (M := {p}) rfl).mono fun _ _ h => h.sameBlocks
  refine .bind (.attempt _ hconnect) fun connected => .ite ?_ ?_
  · exact .bind (.modify fun _ => .of_eq rfl rfl) fun _ =>
      Keeps.bind ((invalidChainFound_keeps (M := ∅) p).mono fun _ _ h => h.sameBlocks) fun _ =>
        Keeps.throw _
  · refine .bind (.modify fun _ => .of_eq rfl rfl) fun _ =>
      Keeps.bind (txnCommit_sameBlocks _) fun _ =>
      Keeps.bind (deref_keeps _) fun e => .bind (deref_keeps _) fun _ =>
      Keeps.bind (.modify fun w => ?_) fun _ =>
        (removeBlockFromPool_keeps _).mono fun _ _ h => h.sameBlocks
    exact (setPrevNext_linksOnly w p (some p)).sameBlocks

theorem reorganize_sameBlocks : Keeps SameBlocks (reorganize E ctx p) := by
  refine .bind (fun w => ?_) fun r => .bind (txnCommit_sameBlocks _) fun _ =>
    Keeps.bind (.modify fun w => (relink_linksOnly w _ _).sameBlocks) fun _ =>
    Keeps.bind ((resurrect_keeps _).mono fun _ _ h => h.sameBlocks) fun _ =>
      (deleteFromPool_keeps _).mono fun _ _ h => h.sameBlocks
  obtain ⟨M, -, hf⟩ := switchBranch_frame E ctx p w
  exact hf.sameBlocks

theorem connectPostponed_sameBlocks (ps : List Uint256) :
    Keeps SameBlocks (connectPostponed E ctx ps) := by
  induction ps with
  | nil => exact .pure _
  | cons p ps ih =>
    refine .bind (deref_keeps _) fun e => .bind Keeps.get fun w => ?_
    split
    · exact .pure _
    · exact .bind txnBegin_sameBlocks fun _ =>
        Keeps.bind (.attempt _ setBestChainInner_sameBlocks) fun _ =>
          Keeps.ite ih (.pure _)

theorem switchChain_sameBlocks : Keeps SameBlocks (switchChain E ctx p) := by
  refine .bind bestIndex_keeps fun best => .bind Keeps.get fun w => ?_
  split
  · exact .throw _
  · refine .bind (.attempt _ reorganize_sameBlocks) fun switched =>
      Keeps.ite ?_ (connectPostponed_sameBlocks _)
    exact .bind (.modify fun _ => .of_eq rfl rfl) fun _ =>
      Keeps.bind ((invalidChainFound_keeps (M := ∅) p).mono fun _ _ h => h.sameBlocks) fun _ =>
        Keeps.throw _

theorem setBestChain_sameBlocks : Keeps SameBlocks (setBestChain E ctx block p) := by
  refine .bind txnBegin_sameBlocks fun _ => .bind ?_ fun _ => ?_
  · refine .bind Keeps.get fun w => .ite ?_ (.ite ?_ switchChain_sameBlocks)
    · exact .bind (.modify fun _ => .of_eq rfl rfl) fun _ =>
        Keeps.bind (txnCommit_sameBlocks _) fun _ => .modify fun _ => .of_eq rfl rfl
    · exact .mapError _ setBestChainInner_sameBlocks
  · exact .bind (deref_keeps _) fun new =>
      Keeps.bind (.modify fun _ => .of_eq rfl rfl) fun _ =>
      Keeps.ite (.bind (deref_keeps _) fun _ => .pure _) (.pure _)

theorem setBestChain_sameFiles : Keeps SameFiles (setBestChain E ctx block p) :=
  setBestChain_sameBlocks.mono fun _ _ h => h.files

theorem RollingOnly.sameFiles (h : RollingOnly w w') : w'.files = w.files := by
  rw [h.eq]

/-- The files hold all the transactions they held before. -/
def FilesGrow (w w' : World) : Prop := w.files.txs ⊆ w'.files.txs

instance : IsPreorder World FilesGrow where
  refl _ := List.Subset.refl _
  trans _ _ _ h1 h2 := List.Subset.trans h1 h2

theorem SameFiles.filesGrow (h : SameFiles w w') : FilesGrow w w' := by
  rw [FilesGrow, show w'.files = w.files from h]
  exact List.Subset.refl _

theorem BlockFiles.txs_writeToDisk (fs : BlockFiles) (block : CBlock) :
    fs.txs ⊆ (fs.writeToDisk block).1.txs := by
  exact List.subset_append_right _ _

/-- What `AcceptBlock` keeps if the chain, the files and the new entry do. -/
theorem acceptBlock_keeps {R : World → World → Prop} [IsPreorder World R]
    (hsame : ∀ w w', SameBlocks w w' → R w w')
    (hentry : ∀ w e txdb, R w (w.withEntry (block.getHash E) e txdb))
    (hfiles : ∀ w, R w { w with files := (w.files.writeToDisk block).1 }) :
    Keeps R (acceptBlock E ctx block) := by
  have hindex : ∀ nFile nBlockPos hashProof,
      Keeps R (indexBlock E ctx block nFile nBlockPos hashProof) := by
    intro nFile nBlockPos hashProof w
    rcases indexBlock_cases E ctx block nFile nBlockPos hashProof (w :=
      { w with txdb := .fresh w.txdb }) rfl with ⟨s, h⟩ | ⟨modifier, hfile, -, -, h⟩
    · rw [show indexBlock E ctx block nFile nBlockPos hashProof w = _ from h]
      exact hsame _ _ (.of_eq rfl rfl)
    · rcases h with ⟨-, h⟩ | ⟨-, h⟩ <;>
      · rw [show indexBlock E ctx block nFile nBlockPos hashProof w = _ from h]
        exact hentry _ _ _
  have hstore : ∀ hashProof, Keeps R (storeBlock E ctx block hashProof) := by
    intro hashProof w
    refine IsTrans.trans _ _ _ (hfiles w) (Keeps.bind (hindex _ _ _) (fun _ => .bind (deref_keeps _)
      fun _ => Keeps.bind Keeps.get fun _ => .ite (.mapError _ ?_) (.pure _)) _)
    exact setBestChain_sameBlocks.mono hsame
  refine .bind Keeps.get fun w => .bind (.lift _) fun _ => Keeps.bind (.lift _) fun _ => ?_
  split
  · exact .throw _
  · refine .bind (.lift _) fun hashProof => Keeps.bind (.mapError _ (hstore hashProof)) fun _ =>
      Keeps.bind ((rollingCheckpoints_keeps _ _).mono fun _ _ h => ?_) fun _ =>
      Keeps.modify fun _ => hsame _ _ (.of_eq rfl rfl)
    exact h.eq ▸ hsame _ _ (.of_eq rfl rfl)

theorem acceptBlock_filesGrow : Keeps FilesGrow (acceptBlock E ctx block) :=
  acceptBlock_keeps (fun _ _ h => SameFiles.filesGrow h.files) (fun _ _ _ => List.Subset.refl _)
    fun w => BlockFiles.txs_writeToDisk w.files block

/-- At most the entry `hash` has been added to the index. -/
def IndexOnly (hash : Uint256) (w w' : World) : Prop :=
  ∀ p, p ≠ hash → (w'.mapBlockIndex.lookup p).isSome = (w.mapBlockIndex.lookup p).isSome

instance : IsPreorder World (IndexOnly hash) where
  refl _ _ _ := rfl
  trans _ _ _ h1 h2 p hp := (h2 p hp).trans (h1 p hp)

theorem SameBlocks.indexOnly (h : SameBlocks w w') : IndexOnly hash w w' := by
  intro p _
  have := congrArg Option.isSome (h.tree p)
  simpa using this

theorem acceptBlock_indexOnly : Keeps (IndexOnly (block.getHash E)) (acceptBlock E ctx block) :=
  acceptBlock_keeps (fun _ _ h => h.indexOnly)
    (fun _ _ _ _ hp => by rw [World.withEntry, lookup_insert_ne hp]) fun _ _ _ => rfl

/-! ### `AcceptBlock` -/

/-- In a call of `AddToBlockIndex`, no postponed block fails to connect. -/
def addNoPostponedFails (E : Env) (ctx : Ctx) (block : CBlock) (nFile nBlockPos : ℕ)
    (hashProof : Uint256) (w : World) : Bool :=
  match indexBlock E ctx block nFile nBlockPos hashProof w with
  | .error _ _ => true
  | .ok _ w1 =>
    if ∃ e ∈ w1.mapBlockIndex.lookup (block.getHash E), e.nChainTrust > w1.nBestChainTrust then
      noPostponedFails E ctx block (block.getHash E) w1
    else true

/-- In a call of `AcceptBlock`, no postponed block fails to connect. -/
def acceptNoPostponedFails (E : Env) (ctx : Ctx) (block : CBlock) (w : World) : Bool :=
  match w.mapBlockIndex.lookup block.hashPrevBlock with
  | none => true
  | some prev =>
    match checkAcceptBlock E ctx prev block with
    | .error _ => true
    | .ok hashProof =>
      let (files, nFile, nBlockPos) := w.files.writeToDisk block
      addNoPostponedFails E ctx block nFile nBlockPos hashProof { w with files := files }

/-- Nothing is postponed when a block extends the best chain. -/
theorem acceptNoPostponedFails_extends (hb : w.txdb.activeBatch = none)
    (h : block.hashPrevBlock = w.hashBestChain) : acceptNoPostponedFails E ctx block w = true := by
  have hadd : ∀ nFile nBlockPos hashProof, addNoPostponedFails E ctx block nFile nBlockPos hashProof
        { w with files := (w.files.writeToDisk block).1 } = true := by
    intro nFile nBlockPos hashProof
    rw [addNoPostponedFails]
    rcases indexBlock_cases E ctx block nFile nBlockPos hashProof
      (w := { w with files := (w.files.writeToDisk block).1 }) hb with ⟨s, hs⟩ | ⟨_, _, -, -, hr⟩
    · rw [hs]
    · rcases hr with ⟨-, hr⟩ | ⟨-, hr⟩
      · rw [hr]
        simp only
        split_ifs
        · exact if_pos h
        · rfl
      · rw [hr]
  rw [acceptNoPostponedFails]
  split
  · rfl
  · split
    · rfl
    · exact hadd _ _ _

theorem addToBlockIndex_returns (hc : Inv E g w tip)
    (hjs : JustStored w block nFile nBlockPos d) (hnc : NoCollision E w'.files.txs)
    (hall : addNoPostponedFails E ctx block nFile nBlockPos hashProof w = true)
    (h : Returns (addToBlockIndex E ctx block nFile nBlockPos hashProof) w w') :
    ∃ tip', Inv E g w' tip' := by
  rcases returns_bind h with ⟨s, h1, -⟩ | ⟨_, w1, h1, h2⟩
  · exact ⟨tip, indexBlock_inv_of_false hc hjs h1⟩
  · obtain ⟨hi, e, he, hprev, hst⟩ := indexBlock_inv hc hjs h1
    rw [addNoPostponedFails, h1] at hall
    simp only [he, Option.mem_def, some.injEq, exists_eq_left'] at hall
    have hd : deref (some (block.getHash E)) w1 = .ok e w1 := deref_eq_ok.2 ⟨he, rfl⟩
    unfold Returns at h2
    rw [bind_of_ok hd, get_bind_apply] at h2
    split_ifs at h2 with ht
    · rw [if_pos ht] at hall
      have hret := returns_of_mapError h2
      have hf' : w'.files = w1.files := Keeps.returns setBestChain_sameFiles hret
      exact setBestChain_returns hi (hf' ▸ hnc) he hprev hst hall hret
    · rcases h2 with ⟨_, h2⟩ | ⟨s, h2, -⟩ <;> cases h2
      exact ⟨tip, hi⟩

theorem JustStored.of_writeToDisk (hd : w.mapBlockIndex.lookup block.hashPrevBlock = some d)
    (hh : pushInt (d.nHeight + 1) <+: block.coinbaseScript) :
    JustStored { w with files := (w.files.writeToDisk block).1 } block
      (w.files.writeToDisk block).2.1 (w.files.writeToDisk block).2.2 d :=
  ⟨hd, writeToDisk_readBlock _ _, fun _ hf hp => writeToDisk_located _ _ hf hp, hh⟩

theorem checkAcceptBlock_height (h : checkAcceptBlock E ctx d block = .ok hashProof) :
    pushInt (d.nHeight + 1) <+: block.coinbaseScript := by
  simp only [checkAcceptBlock, except_bind_eq_ok, rejectIf_eq_ok, exists_const, not_not] at h
  obtain ⟨-, -, -, -, _, -, _, -, -, -, -, -, _, -, -, hh, -⟩ := h
  exact hh

theorem acceptBlock_returns (hc : Inv E g w tip) (hnc : NoCollision E w'.files.txs)
    (hall : acceptNoPostponedFails E ctx block w = true)
    (h : Returns (acceptBlock E ctx block) w w') : ∃ tip', Inv E g w' tip' := by
  unfold Returns acceptBlock at h
  rw [bind_apply] at h
  rcases returns_bind h with ⟨s, h1, -⟩ | ⟨_, w1, h1, h2⟩
  · obtain rfl := (Keeps.lift (R := Eq) _).error h1
    exact ⟨tip, hc⟩
  obtain rfl := (Keeps.lift (R := Eq) _).ok h1
  rcases returns_bind h2 with ⟨s, h3, -⟩ | ⟨_, w2, h3, h4⟩
  · obtain rfl := (Keeps.lift (R := Eq) _).error h3
    exact ⟨tip, hc⟩
  obtain rfl := (Keeps.lift (R := Eq) _).ok h3
  rw [acceptNoPostponedFails] at hall
  cases hd : w.mapBlockIndex.lookup block.hashPrevBlock with
  | none =>
    rw [hd] at h4
    rcases h4 with ⟨_, h4⟩ | ⟨s, h4, -⟩ <;> cases h4
    exact ⟨tip, hc⟩
  | some prev =>
    rw [hd] at h4 hall
    simp only at h4 hall
    rcases returns_bind h4 with ⟨s, h5, -⟩ | ⟨hashProof, w5, h5, h6⟩
    · obtain rfl := (Keeps.lift (R := Eq) _).error h5
      exact ⟨tip, hc⟩
    obtain ⟨hchk, rfl⟩ := lift_eq_ok.1 h5
    rw [hchk] at hall
    have hjs := JustStored.of_writeToDisk (w := w) hd (checkAcceptBlock_height hchk)
    -- the block is written and indexed, and may become the best block
    have hstore : ∀ t, NoCollision E t.files.txs →
        Returns (mapError (.report (.error "AcceptBlock() : AddToBlockIndex failed"))
          (storeBlock E ctx block hashProof)) w t → ∃ tip', Inv E g t tip' := by
      intro t htnc ht
      have ht' : Returns (addToBlockIndex E ctx block (w.files.writeToDisk block).2.1
          (w.files.writeToDisk block).2.2 hashProof)
          { w with files := (w.files.writeToDisk block).1 } t := returns_of_mapError ht
      exact addToBlockIndex_returns (hc.files (writeToDisk_grows _ _)) hjs htnc hall ht'
    rcases returns_bind h6 with ⟨s, h7, hs⟩ | ⟨_, w7, h7, h8⟩
    · exact hstore w' hnc (.inr ⟨s, h7, hs⟩)
    · have hroll : RollingOnly w7 w' := by
        refine Keeps.returns (Keeps.bind (rollingCheckpoints_keeps _ _) fun _ => ?_) h8
        exact Keeps.modify fun _ => ⟨rfl, id⟩
      obtain ⟨tip', hi⟩ := hstore w7 (hroll.sameFiles ▸ hnc) (.inl ⟨(), h7⟩)
      exact ⟨tip', hi.of_rollingOnly hroll⟩

/-! ### The first start -/

/-- The genesis block of the chain: one coinbase. -/
structure GenesisBlock (E : Env) (genesis : CBlock) : Prop where
  hash : genesis.getHash E = E.hashGenesisBlock
  coinbase : ∃ cb, genesis.vtx = [cb] ∧ cb.isCoinBase = true

/-- An index that holds nothing but an entry without a parent. -/
theorem coherent_of_single (hm : w.mapBlockIndex = (∅ : BlockMap).insert g e)
    (hh : e.hashBlock = g) (hp : e.pprev = none) (hn : e.pnext = none) (h0 : e.nHeight = 0)
    (hs : e.nMoneySupply = 0) (hgen : w.pindexGenesisBlock = some g) (hdb : w.txdb = txdb)
    (hb : txdb.activeBatch = none) (hv : txdb.view = fun _ => none)
    (hrec : txdb.pdb.lookup .hashBestChain = some g) : Coherent E g w g := by
  have hl : ∀ p d, w.mapBlockIndex.lookup p = some d → p = g ∧ d = e := by
    intro p d hd
    rw [hm] at hd
    rcases eq_or_ne p g with rfl | hpg
    · rw [lookup_insert, some.injEq] at hd
      exact ⟨rfl, hd.symm⟩
    · rw [lookup_insert_ne hpg, lookup_empty] at hd
      cases hd
  have hg : w.mapBlockIndex.lookup g = some e := by rw [hm, lookup_insert]
  have hpar : ∀ p, parent w.mapBlockIndex p = none := by
    intro p
    cases hq : parent w.mapBlockIndex p with
    | none => rfl
    | some q =>
      obtain ⟨d, hd, hdq⟩ := parent_eq_some.1 hq
      rw [(hl p d hd).2, hp] at hdq
      cases hdq
  refine ⟨⟨⟨fun p d hd => ?_, fun p d q hd hq => ?_, fun p d hd _ => ?_⟩,
    fun p d q hd hq => ?_, hgen⟩, ⟨[], ?_⟩, fun p q => ?_,
    by rw [hdb]; exact hb, by rw [hdb]; exact hrec⟩
  · obtain ⟨rfl, rfl⟩ := hl p d hd
    exact hh
  · rw [(hl p d hd).2, hp] at hq
    cases hq
  · obtain ⟨rfl, rfl⟩ := hl p d hd
    exact ⟨rfl, h0⟩
  · rw [(hl p d hd).2, hp] at hq
    cases hq
  · rw [hdb, hv]
    exact .genesis hg hp hs
  · simp only [hpar, reduceCtorEq, false_and, iff_false]
    intro hnext
    obtain ⟨d, hd, hdq⟩ := Option.bind_eq_some_iff.1 hnext
    rw [(hl p d hd).2, hn] at hdq
    cases hdq

theorem setBestChain_genesis (hgen : w.pindexGenesisBlock = none)
    (hhash : block.getHash E = E.hashGenesisBlock) (h : setBestChain E ctx block p w = .ok () w') :
    newBestBlock (block.getHash E) p { w with
      txdb := Store.Db.commit (CTxDB.writeHashBestChain w.txdb.begin (block.getHash E))
      pindexGenesisBlock := some p } = .ok () w' := by
  obtain ⟨_, w1, h1, k1⟩ := bind_eq_ok.1 h
  obtain ⟨-, rfl⟩ := txnBegin_eq_ok h1
  obtain ⟨_, w2, h2, k2⟩ := bind_eq_ok.1 k1
  unfold attachBlock at h2
  rw [get_bind_apply] at h2
  rw [if_pos ⟨hgen, hhash⟩] at h2
  obtain ⟨_, w3, h3, k3⟩ := bind_eq_ok.1 h2
  cases h3
  obtain ⟨_, w4, h4, k4⟩ := bind_eq_ok.1 k3
  obtain ⟨rfl, -⟩ := txnCommit_eq_ok h4
  cases k4
  exact k2

/-- **The first start**: the node is coherent at the genesis block. -/
theorem loadGenesis_inv {genesis : CBlock} (hg : GenesisBlock E genesis)
    (h : loadGenesis E ctx genesis emptyWorld = .ok () w)
    (hbest : w.pindexBest = some (genesis.getHash E)) :
    Inv E (genesis.getHash E) w (genesis.getHash E) := by
  set files := (emptyWorld.files.writeToDisk genesis).1 with hfiles
  have hadd : addToBlockIndex E ctx genesis (emptyWorld.files.writeToDisk genesis).2.1
    (emptyWorld.files.writeToDisk genesis).2.2 E.hashGenesisBlock { emptyWorld with files :=
    files } = .ok () w := h
  obtain ⟨_, w1, h1, k1⟩ := bind_eq_ok.1 hadd
  obtain ⟨e, w2, h2, k2⟩ := bind_eq_ok.1 k1
  obtain ⟨he, rfl⟩ := deref_eq_ok.1 h2
  rcases indexBlock_cases E ctx genesis (emptyWorld.files.writeToDisk genesis).2.1
    (emptyWorld.files.writeToDisk genesis).2.2 E.hashGenesisBlock
    (w := { emptyWorld with files := files }) rfl with ⟨s, hs⟩ | ⟨modifier, hfile, -, -, hr⟩
  · rw [hs] at h1; cases h1
  rcases hr with ⟨-, hr⟩ | ⟨-, hr⟩
  · rw [hr] at h1
    obtain rfl : _ = w2 := by cases h1; rfl
    rw [get_bind_apply] at k2
    split_ifs at k2 with ht
    · rw [mapError_eq_ok] at k2
      have hnew := setBestChain_genesis rfl hg.hash k2
      refine (newBestBlock_inv ?_ rfl hnew).1
      refine coherent_of_single rfl rfl rfl rfl rfl rfl rfl rfl rfl ?_ ?_
      · rw [view_commit, view_writeHashBestChain, view_begin _ rfl]
        exact (view_commit _).trans ((view_writeBlockIndex _).trans rfl)
      · rw [Store.Db.commit_pdb]
        exact Store.Db.read_write_self _ _ _
    · cases k2
      cases hbest
  · rw [hr] at h1; cases h1

end Espers
