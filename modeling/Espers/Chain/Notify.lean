import Espers.Chain.Cap

/-!
# Wallet notifications

`ConnectBlock` and `DisconnectBlock` tell the wallets about every transaction of the block at their
end, before the batch they work in is committed.

* `disconnectBranch_told`, `connectBranch_told` : what the loops of `Reorganize` have told the
  wallets, wherever they stop.
* `setBestChain_notified_iff` : **the notifications of a call are those of a walk from the old
  committed tip to the new one exactly when** no batch is given up in which a block was connected or
  disconnected.
-/

namespace Espers

open Exec List BlockMap Forest
open Option (bind_some some)

variable {E : Env} {ctx : Ctx} {g p q f tip : Uint256} {w w' w1 w2 : World} {e : CBlockIndex}
  {block : CBlock} {b : Bool}

/-! ### What the wallets are told -/

/-- The notifications for the blocks of `ps`, in this order. -/
def World.blockSync (w : World) (fConnect : Bool) (ps : List Uint256) : List SyncEvent :=
  ps.flatMap fun p => ((w.blockAt p).map (syncBlock · fConnect)).getD []

/-- Between the two states the wallets were told `evs` about blocks. -/
def Told (w w' : World) (evs : List SyncEvent) : Prop :=
  ∃ events, w'.walletLog = w.walletLog ++ events ∧ blockEvents events = evs

/-- The block an entry points to holds a transaction. -/
def HasBlock (w : World) (p : Uint256) : Prop := ∃ block, w.blockAt p = some block ∧ block.vtx ≠ []

theorem blockEvents_syncBlock (block : CBlock) (b : Bool) :
    blockEvents (syncBlock block b) = syncBlock block b := by
  simp [blockEvents, syncBlock]

theorem blockSync_cons (w : World) (b : Bool) (h : w.blockAt p = some block) (ps : List Uint256) :
    w.blockSync b (p :: ps) = syncBlock block b ++ w.blockSync b ps := by
  simp [World.blockSync, h]

theorem blockSync_append (w : World) (b : Bool) (ps qs : List Uint256) :
    w.blockSync b (ps ++ qs) = w.blockSync b ps ++ w.blockSync b qs := flatMap_append

variable {ps : List Uint256}

theorem mem_blockSync {ev : SyncEvent} (h : ev ∈ w.blockSync b ps) :
    ev.fConnect = b ∧ ∃ x ∈ ps, ∃ block, w.blockAt x = some block ∧ ev.pblock = some block := by
  obtain ⟨x, hx, hev⟩ := mem_flatMap.1 h
  cases hb : w.blockAt x with
  | none => simp [hb] at hev
  | some block =>
    simp only [hb, Option.map_some, Option.getD_some, syncBlock, mem_map] at hev
    obtain ⟨tx, -, rfl⟩ := hev
    exact ⟨rfl, x, hx, block, hb, rfl⟩

theorem blockEvents_blockSync (w : World) (b : Bool) (ps : List Uint256) :
    blockEvents (w.blockSync b ps) = w.blockSync b ps := by
  refine filter_eq_self.2 fun ev hev => ?_
  obtain ⟨-, x, -, block, -, hp⟩ := mem_blockSync hev
  rw [hp]
  rfl

theorem blockSync_eq_nil (h : ∀ x ∈ ps, HasBlock w x) : w.blockSync b ps = [] ↔ ps = [] := by
  constructor
  · intro hn
    cases ps with
    | nil => rfl
    | cons x ps =>
      obtain ⟨block, hb, hne⟩ := h x mem_cons_self
      rw [blockSync_cons w b hb] at hn
      exact absurd (append_eq_nil_iff.1 hn).1 (by simp [syncBlock, hne])
  · rintro rfl
    rfl

namespace Told

variable {evs evs' : List SyncEvent}

theorem of_log (h : w'.walletLog = w.walletLog) : Told w w' [] := ⟨[], by simp [h], rfl⟩

theorem of_poolOnly (h : PoolOnly w w') : Told w w' [] := h.log

theorem of_sync {ps : List Uint256} (h : w'.walletLog = w.walletLog ++ w1.blockSync b ps) :
    Told w w' (w1.blockSync b ps) := ⟨_, h, blockEvents_blockSync _ _ _⟩

theorem trans (h : Told w w1 evs) (h' : Told w1 w' evs') : Told w w' (evs ++ evs') := by
  obtain ⟨l, hl, rfl⟩ := h
  obtain ⟨l', hl', rfl⟩ := h'
  exact ⟨l ++ l', by rw [hl', hl, append_assoc], filter_append _ _⟩

theorem unique (h : Told w w' evs) (h' : Told w w' evs') : evs = evs' := by
  obtain ⟨l, hl, rfl⟩ := h
  obtain ⟨l', hl', rfl⟩ := h'
  rw [append_cancel_left (hl.symm.trans hl')]

end Told

theorem SameBlocks.blockAt (h : SameBlocks w w') (p : Uint256) : w'.blockAt p = w.blockAt p := by
  unfold World.blockAt
  rw [h.files]
  cases hl : w'.mapBlockIndex.lookup p with
  | none =>
    have hs := h.tree.isSome p
    rw [hl, Option.isSome_none] at hs
    have hn : w.mapBlockIndex.lookup p = none := Option.not_isSome_iff_eq_none.1 (by simp [← hs])
    rw [hn]
  | some e' =>
    obtain ⟨e, he, hfix⟩ := h.tree.lookup hl
    rw [he, bind_some, bind_some, CBlockIndex.fixed_nFile hfix, CBlockIndex.fixed_nBlockPos hfix]

theorem SameBlocks.blockSync (h : SameBlocks w w') (b : Bool) (ps : List Uint256) :
    w'.blockSync b ps = w.blockSync b ps := by
  simp only [World.blockSync, h.blockAt]

theorem SameBlocks.hasBlock (h : SameBlocks w w') : HasBlock w' p ↔ HasBlock w p := by
  simp only [HasBlock, h.blockAt]

/-! ### The loops of `Reorganize` -/

variable {s : Stop}

theorem readBlock_error {msg : String} (h : readBlock E ctx p msg w = .error s w') : w' = w :=
  ((readBlock_keeps (R := fun a b => b = a) msg).error h)

/-- The first block of the list is read and disconnected. -/
def disconnectsFirst (E : Env) (ctx : Ctx) : List Uint256 → World → Bool
  | [], _ => false
  | p :: _, w => isOk ((do
      let block ← readBlock E ctx p "Reorganize() : ReadFromDisk for disconnect failed"
      disconnectBlock E block p) w)

/-- The first block of the list is read and connected. -/
def connectsFirst (E : Env) (ctx : Ctx) : List Uint256 → World → Bool
  | [], _ => false
  | p :: _, w => isOk ((do
      let block ← readBlock E ctx p "Reorganize() : ReadFromDisk for connect failed"
      connectBlock E ctx block p) w)

/-- How far a loop over `ps` has come, by what the wallets were told: it has handled `ks`. -/
structure Handled (w w' : World) (b done first : Bool) (ps ks : List Uint256) : Prop where
  isPrefix : ks <+: ps
  blocks : ∀ x ∈ ks, HasBlock w x
  log : w'.walletLog = w.walletLog ++ w.blockSync b ks
  all : done = true → ks = ps
  none : ks = [] ↔ first = false

theorem Handled.nothing {done first : Bool} (hd : done = true → ps = [])
    (hf : first = false) (hl : w'.walletLog = w.walletLog) : Handled w w' b done first ps [] :=
  ⟨List.nil_prefix, by simp, by simp [World.blockSync, hl], fun h => (hd h).symm, by simp [hf]⟩

theorem Handled.cons {done first : Bool} {ps ks : List Uint256}
    (h : Handled w1 w' b done first ps ks) (hs : SameBlocks w w1) (hb : w.blockAt p = some block)
    (hne : block.vtx ≠ []) (hlog : w1.walletLog = w.walletLog ++ syncBlock block b) :
    Handled w w' b done true (p :: ps) (p :: ks) := by
  refine ⟨cons_prefix_cons.2 ⟨rfl, h.isPrefix⟩, fun x hx => ?_, ?_, fun hd => ?_, by simp⟩
  · rcases mem_cons.1 hx with rfl | hx
    · exact ⟨block, hb, hne⟩
    · exact hs.hasBlock.1 (h.blocks x hx)
  · rw [h.log, hlog, blockSync_cons w b hb, hs.blockSync, append_assoc]
  · rw [h.all hd]

theorem Reads.sane (h : Reads E g w p) (he : w.mapBlockIndex.lookup p = some e)
    (hprev : e.pprev = some q) (hrd : w.files.readBlock e.nFile e.nBlockPos = some block) :
    BlockSane E block := by
  obtain ⟨l, hl⟩ := h
  generalize w.txdb.view = v at hl
  cases hl with
  | genesis he' hp' =>
    obtain rfl := some.inj (he.symm.trans he')
    rw [hprev] at hp'
    cases hp'
  | block hq hc =>
    obtain rfl := some.inj (he.symm.trans hc.entry)
    obtain rfl := some.inj (hrd.symm.trans hc.stored.read)
    exact hc.sane

/-- **What the loop that disconnects tells the wallets**, wherever it stops. -/
theorem disconnectBranch_told (ctx : Ctx) (nReorgMax : ℤ)
    (acc : List CTransaction) (hi : Indexed E g w) (hr : Reads E g w p)
    (hnc : NoCollision E w.files.txs) (hd : Down (parent w.mapBlockIndex) p ps f) :
    ∃ ks, Handled w (finalState (disconnectBranch E ctx nReorgMax ps acc w)) false
      (isOk (disconnectBranch E ctx nReorgMax ps acc w)) (disconnectsFirst E ctx ps w) ps ks := by
  induction ps generalizing acc w p with
  | nil => exact ⟨[], .nothing (fun _ => rfl) rfl rfl⟩
  | cons x ps ih =>
    cases hd with
    | @cons _ c _ _ hpar hd =>
    cases hrd : readBlock E ctx x "Reorganize() : ReadFromDisk for disconnect failed" w with
    | error s w1 =>
      have hrun : disconnectBranch E ctx nReorgMax (x :: ps) acc w = .error s w1 := by
        rw [disconnectBranch, bind_of_error hrd]
      refine ⟨[], ?_⟩
      rw [hrun]
      refine .nothing (by simp [isOk]) ?_ (by rw [readBlock_error hrd]; rfl)
      rw [disconnectsFirst, bind_of_error hrd]
      rfl
    | ok block w1 =>
      obtain ⟨rfl, e, he, hdisk⟩ := readBlock_eq_ok hrd
      have hrb := (readBlockFromDisk_eq_some hdisk).1
      rw [parent_of_lookup he] at hpar
      obtain ⟨w2, h2, hr2, hlog⟩ := disconnectBlock_ok hi hr hnc he hpar hrb
      have hframe : Frame BatchOnly ∅ w1 w2 := disconnectBlock_keeps.ok h2
      obtain ⟨e2, he2⟩ :=
        Option.isSome_iff_exists.1 ((hframe.sameTree.isSome x).trans (by simp [he]))
      have hrun : disconnectBranch E ctx nReorgMax (x :: ps) acc w1 =
          disconnectBranch E ctx nReorgMax ps
          ((resurrectable block e2.nHeight nReorgMax).reverse ++ acc)
            w2 := by
        rw [disconnectBranch, bind_of_ok hrd, bind_of_ok (mapError_eq_ok.2 h2),
          bind_of_ok (deref_of_lookup he2)]
      have hne : block.vtx ≠ [] := (hr.sane he hpar hrb).vtx_ne
      obtain ⟨ks, hk⟩ := ih ((resurrectable block e2.nHeight nReorgMax).reverse ++ acc)
        (hi.frame hframe) hr2 (by rw [hframe.files]; exact hnc)
        (by rw [hframe.sameTree.parent]; exact hd)
      refine ⟨x :: ks, ?_⟩
      rw [hrun]
      have hfirst : disconnectsFirst E ctx (x :: ps) w1 = true := by
        rw [disconnectsFirst, bind_of_ok hrd, h2]
        rfl
      rw [hfirst]
      refine hk.cons hframe.sameBlocks ?_ hne hlog
      rw [World.blockAt, he]
      exact hrb

theorem connectBlock_error (h : connectBlock E ctx block p w = .error s w') :
    w'.walletLog = w.walletLog := by
  rw [connectBlock, bind_eq_error] at h
  rcases h with h | ⟨⟨e, prev, t⟩, w1, -, h⟩
  · rw [(checkConnect_keeps.error h).eq]
  · simp at h

/-- **What the loop that connects tells the wallets**, wherever it stops. -/
theorem connectBranch_told (E : Env) (ctx : Ctx) (ps : List Uint256)
    (acc : List CTransaction) (w : World) :
    ∃ ks, Handled w (finalState (connectBranch E ctx ps acc w)) true
      (isOk (connectBranch E ctx ps acc w)) (connectsFirst E ctx ps w) ps ks := by
  induction ps generalizing acc w with
  | nil => exact ⟨[], .nothing (fun _ => rfl) rfl rfl⟩
  | cons x ps ih =>
    cases hrd : readBlock E ctx x "Reorganize() : ReadFromDisk for connect failed" w with
    | error s w1 =>
      have hrun : connectBranch E ctx (x :: ps) acc w = .error s w1 := by
        rw [connectBranch, connectOne, bind_of_error (bind_of_error hrd)]
      refine ⟨[], ?_⟩
      rw [hrun]
      refine .nothing (by simp [isOk]) ?_ (by rw [readBlock_error hrd]; rfl)
      rw [connectsFirst, bind_of_error hrd]
      rfl
    | ok block w1 =>
      obtain ⟨rfl, e, he, hdisk⟩ := readBlock_eq_ok hrd
      have hat : w1.blockAt x = some block := by
        rw [World.blockAt, he]
        exact (readBlockFromDisk_eq_some hdisk).1
      cases hcon : connectBlock E ctx block x w1 with
      | error s w2 =>
        have hrun : connectBranch E ctx (x :: ps) acc w1 = .error
            (.report (.error "Reorganize() : ConnectBlock failed for block") s) w2 := by
          rw [connectBranch, connectOne, bind_of_error]
          rw [bind_of_ok hrd, bind_of_error (mapError_eq_error.2 ⟨s, hcon, rfl⟩)]
        refine ⟨[], ?_⟩
        rw [hrun]
        refine .nothing (by simp [isOk]) ?_ (connectBlock_error hcon)
        rw [connectsFirst, bind_of_ok hrd, hcon]
        rfl
      | ok _ w2 =>
        obtain ⟨c⟩ := connectBlock_spec hcon
        have hframe : Frame BatchOnly {x} w1 w2 := c.frame rfl
        have hfirst : connectsFirst E ctx (x :: ps) w1 = true := by
          rw [connectsFirst, bind_of_ok hrd, hcon]
          rfl
        have hdr : deref (some x) w2 = .ok _ w2 := deref_of_lookup c.entry'
        rw [hfirst]
        by_cases hv : ctx.velocityCheck (c.e.minted c.prev c.t).nHeight ∧
            ¬ ctx.velocity ((c.e.minted c.prev c.t).pprev.getD 0) block
        · -- the velocity check comes after the block was connected
          have hrun : connectBranch E ctx (x :: ps) acc w1 =
              .error (.error "Reorganize() : Velocity failed at height") w2 := by
            rw [connectBranch, connectOne, bind_of_error]
            rw [bind_of_ok hrd, bind_of_ok (mapError_eq_ok.2 hcon), bind_of_ok hdr, bind_of_error]
            rw [rejectIf, if_pos hv]
            rfl
          rw [hrun]
          have hstop : Handled w2 w2 true false false ps [] := .nothing (by simp) rfl rfl
          exact ⟨[x], hstop.cons hframe.sameBlocks hat c.sane.vtx_ne c.log⟩
        · have hone : connectOne E ctx x w1 = .ok block w2 := by
            rw [connectOne, bind_of_ok hrd, bind_of_ok (mapError_eq_ok.2 hcon), bind_of_ok hdr,
              rejectIf_of_not hv, bind_of_ok (lift_ok () w2)]
            rfl
          obtain ⟨ks, hk⟩ := ih (acc ++ block.vtx) w2
          refine ⟨x :: ks, ?_⟩
          rw [connectBranch, bind_of_ok hone]
          exact hk.cons hframe.sameBlocks hat c.sane.vtx_ne c.log

/-! ### `Reorganize` -/

/-- `Reorganize` gets as far as to disconnect or connect a block. -/
def reorgTouches (E : Env) (ctx : Ctx) (p : Uint256) (w : World) : Bool :=
  match planReorganize ctx p w with
  | .error _ _ => false
  | .ok plan w1 => disconnectsFirst E ctx plan.vDisconnect w1 ||
      (plan.vDisconnect.isEmpty && connectsFirst E ctx plan.vConnect w1)

/-- What a run of `Reorganize` has told the wallets: it has disconnected `ds`, then connected
`us`. -/
structure ReorgTold (E : Env) (ctx : Ctx) (p tip : Uint256) (w w' : World) (ds us : List Uint256) :
    Prop where
  told : Told w w' (w.blockSync false ds ++ w.blockSync true us)
  disconnected : ∀ x ∈ ds, HasBlock w x
  connected : ∀ x ∈ us, HasBlock w x ∧ OffBranch w tip x
  touched : ds = [] ∧ us = [] ↔ reorgTouches E ctx p { w with txdb := w.txdb.begin } = false

variable {ds us : List Uint256}

/-- The loops of `Reorganize`, wherever they stop. -/
theorem reorg_told {plan : ReorgPlan} {w2 : World} {done : Bool}
    (hc : Inv E g w tip)
    (hplan : planReorganize ctx p { w with txdb := w.txdb.begin } = .ok plan w1)
    (hd : Handled w1 w2 false done (disconnectsFirst E ctx plan.vDisconnect w1) plan.vDisconnect ds)
    (hu : us = [] ∧ w'.walletLog = w2.walletLog ∧ ¬ done ∧ plan.vDisconnect ≠ [] ∨
      done = true ∧ SameBlocks w1 w2 ∧ (plan.vDisconnect = [] → w2 = w1) ∧
        ∃ done', Handled w2 w' true done' (connectsFirst E ctx plan.vConnect w2) plan.vConnect us) :
    ReorgTold E ctx p tip w w' ds us := by
  obtain ⟨-, -, hs1, hlog1, -, -, hoff⟩ := planReorganize_begin hc.toCoherent hc.best hplan
  have htouch : reorgTouches E ctx p { w with txdb := w.txdb.begin } =
      (disconnectsFirst E ctx plan.vDisconnect w1 ||
        (plan.vDisconnect.isEmpty && connectsFirst E ctx plan.vConnect w1)) := by
    rw [reorgTouches, hplan]
  have hds : ∀ x ∈ ds, HasBlock w x := fun x hx => hs1.hasBlock.1 (hd.blocks x hx)
  have hdlog : w2.walletLog = w.walletLog ++ w.blockSync false ds := by
    rw [hd.log, hlog1, hs1.blockSync]
  rcases hu with ⟨rfl, hlog, -, hne⟩ | ⟨rfl, hs2, hw2, done', hu⟩
  · refine ⟨?_, hds, by simp, ?_⟩
    · have := Told.of_sync (hlog.trans hdlog)
      simpa [World.blockSync] using this
    · rw [htouch]
      simp [hd.none, hne]
  · have hs := hs1.trans hs2
    refine ⟨?_, hds, fun x hx => ⟨hs.hasBlock.1 (hu.blocks x hx), hoff x (hu.isPrefix.subset hx)⟩,
      ?_⟩
    · refine (Told.of_sync hdlog).trans (Told.of_sync ?_)
      rw [hu.log, hs.blockSync]
    · rw [htouch]
      cases hv : plan.vDisconnect with
      | nil =>
        obtain rfl := hw2 hv
        have hds' := hd.all rfl
        rw [hv] at hds'
        simp [hds', hu.none, disconnectsFirst]
      | cons x ps =>
        have hds' := hd.all rfl
        have hfirst : disconnectsFirst E ctx plan.vDisconnect w1 = true := by
          by_contra hf
          have := hd.none.2 (by simpa using hf)
          rw [hds', hv] at this
          cases this
        rw [hv] at hfirst
        simp [hds', hv, hfirst]

/-- `Reorganize` returns `false`: its loops have stopped somewhere, or the batch was not written. -/
theorem reorganize_told_false (hc : Inv E g w tip) (hnc : NoCollision E w.files.txs)
    (h : reorganize E ctx p { w with txdb := w.txdb.begin } = .error s w')
    (hs : s.returnsFalse = true) : ∃ ds us, ReorgTold E ctx p tip w w' ds us := by
  cases hplan : planReorganize ctx p { w with txdb := w.txdb.begin } with
  | error s1 w1 =>
    have hrun : reorganize E ctx p { w with txdb := w.txdb.begin } = .error s1 w1 := by
      rw [reorganize, bind_of_error]
      rw [switchBranch, bind_of_error hplan]
    obtain ⟨rfl, rfl⟩ : s1 = s ∧ w1 = w' := by simpa using hrun.symm.trans h
    refine ⟨[], [], .of_log ?_, by simp, by simp, ?_⟩
    · rw [((planReorganize_keeps ctx p).error hplan).eq]
    · simp [reorgTouches, hplan]
  | ok plan w1 =>
    obtain ⟨hi1, hr1, hs1, -, hdown, -, -⟩ := planReorganize_begin hc.toCoherent hc.best hplan
    obtain ⟨ds, hd⟩ := disconnectBranch_told ctx plan.nReorgMax [] hi1 hr1
      (by rw [hs1.files]; exact hnc) (by rw [hs1.tree.parent]; exact hdown)
    cases hdis : disconnectBranch E ctx plan.nReorgMax plan.vDisconnect [] w1 with
    | error s2 w2 =>
      rw [hdis] at hd
      have hrun : reorganize E ctx p { w with txdb := w.txdb.begin } = .error s2 w2 := by
        rw [reorganize, bind_of_error]
        rw [switchBranch, bind_of_ok hplan, bind_of_error hdis]
      obtain ⟨rfl, rfl⟩ : s2 = s ∧ w2 = w' := by simpa using hrun.symm.trans h
      refine ⟨ds, [], reorg_told hc hplan hd (.inl ⟨rfl, rfl, by simp [isOk], fun hn => ?_⟩)⟩
      rw [hn] at hdis
      cases hdis
    | ok vResurrect w2 =>
      rw [hdis] at hd
      have hs2 : SameBlocks w1 w2 :=
        ((disconnectBranch_keeps (M := ∅) _ _ _).ok hdis : Frame BatchOnly ∅ w1 w2).sameBlocks
      have hw2 : plan.vDisconnect = [] → w2 = w1 := by
        intro hn
        rw [hn] at hdis
        cases hdis
        rfl
      obtain ⟨us, hu⟩ := connectBranch_told E ctx plan.vConnect [] w2
      suffices hlog : w'.walletLog =
        (finalState (connectBranch E ctx plan.vConnect [] w2)).walletLog from ⟨ds, us,
        reorg_told hc hplan hd (.inr ⟨rfl, hs2, hw2, _, { hu with log := hlog.trans hu.log }⟩)⟩
      rcases reorganize_eq_false h hs with h | ⟨r, w4, h4, rfl⟩
      · rw [switchBranch, bind_of_ok hplan, bind_of_ok hdis] at h
        rcases bind_eq_error.1 h with h | ⟨vDelete, w3, h3, h⟩
        · rw [h]
          rfl
        · rcases bind_eq_error.1 h with h | ⟨new, w4, -, h⟩
          · exact absurd hs (deref_noFalse _ _ _ _ h)
          · cases h
      · rw [switchBranch, bind_of_ok hplan, bind_of_ok hdis] at h4
        obtain ⟨vDelete, w3, h3, h4⟩ := bind_eq_ok.1 h4
        obtain ⟨new, _, hdr, h4⟩ := bind_eq_ok.1 h4
        obtain ⟨-, hw⟩ := deref_eq_ok.1 hdr
        rw [hw] at h4
        cases h4
        rw [h3]
        rfl

/-- `Reorganize` succeeds: the wallets were told about both branches. -/
theorem ReorgTrace.told (t : ReorgTrace E ctx p { w with txdb := w.txdb.begin } w')
    (hc : Inv E g w tip) (hnc : NoCollision E w.files.txs) :
    ∃ f ds us, Down (parent w.mapBlockIndex) tip ds f ∧ Up (parent w.mapBlockIndex) f us p ∧
      Told w w' (w.blockSync false ds ++ w.blockSync true us) := by
  obtain ⟨hi1, hr1, hs1, hlog1, hdown, hup, -⟩ :=
    planReorganize_begin hc.toCoherent hc.best t.planned
  obtain ⟨ds, hd⟩ := disconnectBranch_told ctx t.plan.nReorgMax [] hi1 hr1
    (by rw [hs1.files]; exact hnc) (by rw [hs1.tree.parent]; exact hdown)
  obtain ⟨us, hu⟩ := connectBranch_told E ctx t.plan.vConnect [] t.w2
  rw [t.disconnected] at hd
  rw [t.connected] at hu
  obtain rfl := hd.all rfl
  obtain rfl := hu.all rfl
  have hs2 : SameBlocks t.w1 t.w2 :=
    ((disconnectBranch_keeps (M := ∅) _ _ _).ok t.disconnected :
      Frame BatchOnly ∅ t.w1 t.w2).sameBlocks
  have hs := hs1.trans hs2
  have hd' : t.w2.walletLog = w.walletLog ++ w.blockSync false t.plan.vDisconnect := by
    rw [← hs1.blockSync]
    exact hd.log.trans (by rw [hlog1])
  have hu' : t.w3.walletLog = t.w2.walletLog ++ w.blockSync true t.plan.vConnect := by
    rw [← hs.blockSync]
    exact hu.log
  refine ⟨t.plan.pfork, t.plan.vDisconnect, t.plan.vConnect, hdown, hup, ?_⟩
  have hlink := congrArg World.walletLog (relink_linksOnly
    { t.w3 with txdb := Store.Db.commit (t.w3.txdb.writeHashBestChain t.new.hashBlock) }
    t.plan.vDisconnect t.plan.vConnect).eq
  have hend := ((Told.of_sync hd').trans (Told.of_sync hu')).trans
    ((Told.of_log hlink).trans (Told.of_poolOnly t.rest))
  simpa using hend

/-! ### `SetBestChainInner` and the postponed blocks -/

/-- A block that connects is committed. -/
def innerKept (E : Env) (ctx : Ctx) (block : CBlock) (p : Uint256) (w : World) : Bool :=
  isOk (setBestChainInner E ctx block p w) || !isOk (connectBlock E ctx block p w)

/-- Every postponed block that connects is committed. -/
def postponedKept (E : Env) (ctx : Ctx) : List Uint256 → World → Bool
  | [], _ => true
  | p :: ps, w =>
    match w.mapBlockIndex.lookup p with
    | none => true
    | some e =>
      match readBlockFromDisk E ctx w e with
      | none => true
      | some block =>
        innerKept E ctx block p { w with txdb := w.txdb.begin } &&
          match setBestChainInner E ctx block p { w with txdb := w.txdb.begin } with
          | .ok _ w' => postponedKept E ctx ps w'
          | .error _ _ => true

theorem InnerTrace.told (t : InnerTrace E ctx block p w w') : Told w w' (syncBlock block true) := by
  obtain ⟨c⟩ := connectBlock_spec t.connected
  have hlink := congrArg World.walletLog (relink_linksOnly
    { t.mid with txdb := .commit (t.mid.txdb.writeHashBestChain (block.getHash E)) } []
    [p]).eq
  have hcon : Told w t.mid (syncBlock block true) := ⟨_, c.log, blockEvents_syncBlock _ _⟩
  simpa using hcon.trans ((Told.of_log hlink).trans (Told.of_poolOnly t.rest))

/-- The wallets are told nothing. -/
def SameLog (w w' : World) : Prop := w'.walletLog = w.walletLog

instance : IsPreorder World SameLog where
  refl _ := rfl
  trans _ _ _ h1 h2 := Eq.trans h2 h1

theorem invalidChainFound_sameLog (p : Uint256) : Keeps SameLog (invalidChainFound p) :=
  Keeps.bind (deref_keeps _) fun new =>
    Keeps.bind (.modify fun w => noteInvalid_walletLog w new.nChainTrust) fun _ =>
    Keeps.bind (deref_keeps _) fun _ => .bind bestIndex_keeps fun _ =>
    Keeps.ite (.bind (deref_keeps _) fun _ => .pure _) (.pure _)

/-- `SetBestChainInner` returns `false`: the block was refused, or it was connected and then lost
with its batch. -/
theorem setBestChainInner_told_false
    (h : setBestChainInner E ctx block p w = .error s w') (hs : s.returnsFalse = true) :
    Told w w' (if isOk (connectBlock E ctx block p w) then syncBlock block true else []) := by
  rcases setBestChainInner_eq_false h hs with ⟨s', w1, h1, h2⟩ | ⟨w1, h1, rfl⟩
  · rw [h1]
    have herr := connectBlock_error h1
    exact .of_log (Eq.trans ((invalidChainFound_sameLog p).ok h2) herr)
  · obtain ⟨c⟩ := connectBlock_spec h1
    rw [h1]
    exact ⟨_, c.log, blockEvents_syncBlock _ _⟩

/-- **What the loop over the postponed blocks does**: it ends at a block up to which all are
committed, and the wallets were told about one more if that was connected and then lost. -/
theorem connectPostponed_told (hc : Coherent E g w q)
    (hnc : NoCollision E w.files.txs) (hu : Up (parent w.mapBlockIndex) q ps p)
    (h : connectPostponed E ctx ps w = .ok () w') :
    ∃ us q' lost, Up (parent w.mapBlockIndex) q us q' ∧ Coherent E g w' q' ∧
      SameBlocks w w' ∧ Told w w' (w.blockSync true (us ++ lost)) ∧
      (∀ x ∈ lost, HasBlock w x ∧ parent w.mapBlockIndex x = some q') ∧
      (lost = [] ↔ postponedKept E ctx ps w = true) := by
  induction ps generalizing w q with
  | nil =>
    cases hu
    cases h
    exact ⟨[], p, [], .nil _, hc, .refl _, .of_log rfl, by simp, by simp [postponedKept]⟩
  | cons x ps ih =>
    cases hu with
    | cons hpar hu =>
    obtain ⟨e, he, hturn⟩ := connectPostponed_cons_eq_ok h
    rw [postponedKept, he]
    simp only
    rcases hturn with ⟨hrd, rfl⟩ | ⟨block, hrd, hinner⟩
    · rw [hrd]
      exact ⟨[], q, [], .nil _, hc, .refl _, .of_log rfl, by simp, by simp⟩
    rw [hrd]
    have hat : w.blockAt x = some block := by
      rw [World.blockAt, he]
      exact (readBlockFromDisk_eq_some hrd).1
    have hprev : e.pprev = some q := by rw [← parent_of_lookup he]; exact hpar
    obtain ⟨b, hst⟩ := hc.stored x e q he hprev
    obtain rfl : block = b :=
      some.inj ((readBlockFromDisk_eq_some hrd).1.symm.trans hst.read)
    rcases hinner with ⟨s, hinner, hs⟩ | ⟨w3, hinner, k3⟩
    · obtain ⟨hf, hbatch⟩ := setBestChainInner_false hinner hs rfl
      have hend := setBestChainInner_told_false hinner hs
      have htold : Told w w' _ := hend
      have hf' : Frame StoreKept {x} w w' := hf.of_begin hbatch
      have hc' : Coherent E g w' q := hc.of_storeKept hf' hbatch (by
        rintro y rfl
        exact hc.tree.not_anc_child he hprev)
      cases hcon : connectBlock E ctx block x { w with txdb := w.txdb.begin } with
      | error s' w4 =>
        rw [hcon] at htold
        exact ⟨[], q, [], .nil _, hc', hf'.sameBlocks, htold,
          by simp, by simp [innerKept, hcon, hinner, isOk]⟩
      | ok _ w4 =>
        rw [hcon] at htold
        obtain ⟨c⟩ := connectBlock_spec hcon
        refine ⟨[], q, [x], .nil _, hc', hf'.sameBlocks, ?_, ?_,
          by simp [innerKept, hcon, hinner, isOk]⟩
        · rw [nil_append, blockSync_cons w true hat]
          simpa [isOk, World.blockSync] using htold
        · rintro y hy
          obtain rfl := mem_singleton.1 hy
          exact ⟨⟨_, hat, c.sane.vtx_ne⟩, hpar⟩
    · obtain ⟨t⟩ := setBestChainInner_spec hinner
      obtain ⟨hc3, hs3⟩ := t.coherent hc hnc he hprev hst
      obtain ⟨us, q', lost, hup, hc', hs', htold, hlost, hiff⟩ :=
        ih hc3 (by rw [hs3.files]; exact hnc) (by rw [hs3.tree.parent]; exact hu) k3
      rw [hs3.tree.parent] at hup hlost
      simp only [hs3.hasBlock] at hlost
      rw [hs3.blockSync] at htold
      refine ⟨x :: us, q', lost, .cons hpar hup, hc', hs3.trans hs', ?_, hlost, ?_⟩
      · rw [cons_append, blockSync_cons w true hat]
        exact t.told.trans htold
      · simpa [innerKept, hinner, isOk] using hiff

/-! ### `SetBestChain` -/

/-- The notifications between the two states are those of a walk of the index from the tip that was
committed to the tip that is: blocks are disconnected down to a common ancestor, then connected. -/
def Notified (w w' : World) : Prop :=
  ∃ tip tip' f ds us, w.txdb.pdb.lookup .hashBestChain = some tip ∧
    w'.txdb.pdb.lookup .hashBestChain = some tip' ∧
    Down (parent w.mapBlockIndex) tip ds f ∧
    Up (parent w.mapBlockIndex) f us tip' ∧
    Told w w' (w.blockSync false ds ++ w.blockSync true us)

/-- No batch is given up in which a block was connected or disconnected. -/
def batchesKept (E : Env) (ctx : Ctx) (block : CBlock) (p : Uint256) (w : World) : Bool :=
  if block.hashPrevBlock = w.hashBestChain then innerKept E ctx block p { w with txdb :=
    w.txdb.begin }
  else
    match w.pindexBest.bind w.mapBlockIndex.lookup with
    | none => true
    | some best =>
      match postpone w.mapBlockIndex best.nChainTrust (height w.mapBlockIndex p + 1) p
        [] with
      | none => true
      | some (pindexIntermediate, vpindexSecondary) =>
        match reorganize E ctx pindexIntermediate { w with txdb := w.txdb.begin } with
        | .ok _ w' => postponedKept E ctx vpindexSecondary w'
        | .error _ _ => !reorgTouches E ctx pindexIntermediate { w with txdb := w.txdb.begin }

theorem Indexed.eq_of_blockAt (hi : Indexed E g w) {x y a b : Uint256} {block : CBlock}
    (hx : w.blockAt x = some block) (hy : w.blockAt y = some block)
    (hpx : parent w.mapBlockIndex x = some a)
    (hpy : parent w.mapBlockIndex y = some b) : x = y := by
  have key : ∀ z c, w.blockAt z = some block → parent w.mapBlockIndex z = some c →
      block.getHash E = z := by
    intro z c hz hpz
    obtain ⟨e, he, hprev⟩ := parent_eq_some.1 hpz
    obtain ⟨b, hst⟩ := hi.stored z e c he hprev
    rw [World.blockAt, he] at hz
    obtain rfl := some.inj (hst.read.symm.trans hz)
    exact hst.hash
  exact (key x a hx hpx).symm.trans (key y b hy hpy)

/-- The blocks of a path that was connected hold transactions. -/
theorem Reads.hasBlock (h : Reads E g w tip) {x c : Uint256}
    (hx : Anc (parent w.mapBlockIndex) tip x)
    (hpar : parent w.mapBlockIndex x = some c) : HasBlock w x := by
  obtain ⟨l, hl⟩ := h
  generalize w.txdb.view = v at hl
  induction hl with
  | genesis he hp =>
    rcases hx.cases with rfl | ⟨b, hb, -⟩
    · rw [parent_of_lookup he, hp] at hpar
      cases hpar
    · rw [parent_of_lookup he, hp] at hb
      cases hb
  | @block p q e b l v _ hc ih =>
    rcases hx.cases with rfl | ⟨b', hb', hx'⟩
    · refine ⟨b, ?_, hc.sane.vtx_ne⟩
      rw [World.blockAt, hc.entry]
      exact hc.stored.read
    · rw [parent_of_lookup hc.entry, hc.prev] at hb'
      obtain rfl := some.inj hb'
      exact ih hx'

/-- In a walk that ends at `tip'`, the last block that is connected is `tip'`; so it is not the walk
of a call that told about a child of `tip'` last. -/
theorem blockSync_ne_of_lost {x tip' : Uint256} (hi : Indexed E g w)
    (hb : ∀ c, parent w.mapBlockIndex tip' = some c → HasBlock w tip')
    (hu : Up (parent w.mapBlockIndex) f us tip') (hx : HasBlock w x)
    (hpar : parent w.mapBlockIndex x = some tip') (evs : List SyncEvent) :
    w.blockSync false ds ++ w.blockSync true us ≠ evs ++ w.blockSync true [x] := by
  intro heq
  obtain ⟨bx, hbx, hne⟩ := hx
  have hlast : ∃ tx, (evs ++ w.blockSync true [x]).getLast? = some ⟨tx, some bx, true⟩ := by
    rw [blockSync_cons w true hbx]
    obtain ⟨init, tx, htx⟩ := eq_nil_or_concat bx.vtx |>.resolve_left hne
    exact ⟨tx, by simp [World.blockSync, syncBlock, htx]⟩
  obtain ⟨tx, htx⟩ := hlast
  rw [← heq] at htx
  rcases eq_nil_or_concat us with rfl | ⟨us', y, rfl⟩
  · -- nothing is connected, so the last event would be about a disconnected block
    have hmem : (⟨tx, some bx, true⟩ : SyncEvent) ∈ w.blockSync false ds := by
      have := mem_of_getLast? htx
      simpa [World.blockSync] using this
    exact absurd (mem_blockSync hmem).1 (by simp)
  · rw [concat_eq_append] at hu
    obtain ⟨rfl, c, hc⟩ := hu.last
    obtain ⟨b, hby, hbne⟩ := hb c hc
    have hmem : (⟨tx, some bx, true⟩ : SyncEvent) ∈ syncBlock b true := by
      have hsync : w.blockSync true (us'.concat y) = w.blockSync true us' ++ syncBlock b true := by
        rw [concat_eq_append, blockSync_append, blockSync_cons w true hby]
        simp [World.blockSync]
      rw [hsync, ← append_assoc, getLast?_append_of_ne_nil _ (by simp [syncBlock, hbne])] at htx
      exact mem_of_getLast? htx
    obtain ⟨tx', -, htx'⟩ := mem_map.1 hmem
    obtain rfl : b = bx := by simpa using congrArg SyncEvent.pblock htx'
    obtain rfl := hi.eq_of_blockAt hbx hby hpar hc
    have := hi.tree.graded hpar
    omega

/-- A call that leaves the committed tip where it was has told the truth only if it told nothing:
the blocks it told were connected are not on the branch of the tip. -/
theorem blockSync_eq_of_walk {ds us ds' us' : List Uint256} (hi : Indexed E g w)
    (hd : Down (parent w.mapBlockIndex) tip ds f)
    (hu : Up (parent w.mapBlockIndex) f us tip)
    (hds : ∀ x ∈ ds', HasBlock w x)
    (hus : ∀ x ∈ us', HasBlock w x ∧ OffBranch w tip x) (hr : Reads E g w tip)
    (heq : w.blockSync false ds ++ w.blockSync true us = w.blockSync false ds' ++
    w.blockSync true us') : ds' = [] ∧ us' = [] := by
  have hconn := congrArg (List.filter SyncEvent.fConnect) heq
  have hfalse : ∀ ps, (w.blockSync false ps).filter SyncEvent.fConnect = [] := fun ps =>
    filter_eq_nil_iff.2 fun ev hev => by simp [(mem_blockSync hev).1]
  have htrue : ∀ ps, (w.blockSync true ps).filter SyncEvent.fConnect = w.blockSync true ps :=
    fun ps =>
    filter_eq_self.2 fun ev hev => (mem_blockSync hev).1
  rw [filter_append, filter_append, hfalse, hfalse, htrue, htrue, nil_append, nil_append] at hconn
  have hus' : us' = [] := by
    by_contra hne
    obtain ⟨y, hy⟩ := exists_mem_of_ne_nil _ hne
    obtain ⟨⟨b, hb, hbne⟩, hoff, c, hc⟩ := hus y hy
    obtain ⟨tx, htx⟩ := exists_mem_of_ne_nil _ hbne
    have hev : (⟨tx, some b, true⟩ : SyncEvent) ∈ w.blockSync true us := by
      have hmem : (⟨tx, some b, true⟩ : SyncEvent) ∈ w.blockSync true us' := by
        refine mem_flatMap.2 ⟨y, hy, ?_⟩
        rw [hb]
        exact mem_map_of_mem htx
      rw [hconn]
      exact hmem
    obtain ⟨-, x, hx, b', hb', hbb⟩ := mem_blockSync hev
    obtain rfl : b = b' := by simpa using hbb
    obtain ⟨hanc, c', hc'⟩ := hu.anc_of_mem hx
    obtain rfl := hi.eq_of_blockAt hb' hb hc' hc
    exact hoff hanc
  subst hus'
  have husn : us = [] := by
    refine (blockSync_eq_nil (b := true) fun x hx => ?_).1 hconn
    obtain ⟨hanc, c, hc⟩ := hu.anc_of_mem hx
    exact hr.hasBlock hanc hc
  subst husn
  cases hu
  have hdn : ds = [] := by
    have := hd.length hi.tree.graded
    exact eq_nil_of_length_eq_zero (by omega)
  subst hdn
  refine ⟨(blockSync_eq_nil (b := false) hds).1 ?_, rfl⟩
  simpa [World.blockSync] using heq.symm

section

variable (hc : Inv E g w tip) (hnc : NoCollision E w.files.txs)
  (hne : block.hashPrevBlock ≠ w.hashBestChain)
include hc hnc hne

/-- A switch of branch that succeeds. -/
theorem switchChain_told (h : switchChain E ctx p { w with txdb := w.txdb.begin } = .ok () w') :
    ∃ f ds us q' lost, Down (parent w.mapBlockIndex) tip ds f ∧
      Up (parent w.mapBlockIndex) f us q' ∧ Coherent E g w' q' ∧ SameBlocks w w' ∧
      Told w w' (w.blockSync false ds ++ w.blockSync true (us ++ lost)) ∧
      (∀ x ∈ lost, HasBlock w x ∧ parent w.mapBlockIndex x = some q') ∧
      (lost = [] ↔ batchesKept E ctx block p w = true) := by
  obtain ⟨best, pI, us0, w2, hbest, hpost, hup, h2, k2⟩ := switchChain_eq_ok h
  rw [batchesKept, if_neg hne, show w.pindexBest.bind w.mapBlockIndex.lookup = some best from hbest]
  simp only [show postpone w.mapBlockIndex _ _ _ _ = _ from hpost, h2]
  obtain ⟨t⟩ := reorganize_spec h2
  obtain ⟨hc2, hs2⟩ := t.coherent hc.toCoherent hc.best hnc
  obtain ⟨f, ds, us, hd, hu, htold⟩ := t.told hc hnc
  obtain ⟨us', q', lost, hup', hc', hs', htold', hlost, hiff⟩ := connectPostponed_told hc2
    (by rw [hs2.files]; exact hnc) (by rw [hs2.tree.parent]; exact hup) k2
  rw [hs2.tree.parent] at hup' hlost
  simp only [hs2.hasBlock] at hlost
  rw [hs2.blockSync] at htold'
  refine ⟨f, ds, us ++ us', q', lost, hd, hu.append hup', hc', hs2.trans hs', ?_, hlost, hiff⟩
  have := htold.trans htold'
  rwa [append_assoc, ← blockSync_append, ← append_assoc] at this

/-- A switch of branch that fails. -/
theorem switchChain_told_false
    (h : switchChain E ctx p { w with txdb := w.txdb.begin } = .error s w')
    (hs : s.returnsFalse = true) : ∃ pI ds us, ReorgTold E ctx pI tip w w' ds us ∧
    batchesKept E ctx block p w = !reorgTouches E ctx pI { w with txdb := w.txdb.begin } := by
  obtain ⟨best, ⟨pI, ps⟩, s', w2, hbest, hpost, h2, hs', h3⟩ := switchChain_eq_false h hs
  obtain ⟨ds, us, ht⟩ := reorganize_told_false hc hnc h2 hs'
  have htold : Told w2 w' [] := .of_log ((invalidChainFound_sameLog p).ok h3 :)
  refine ⟨pI, ds, us, { ht with told := ?_ }, ?_⟩
  · simpa using ht.told.trans htold
  · rw [batchesKept, if_neg hne, show w.pindexBest.bind w.mapBlockIndex.lookup = some best
      from hbest]
    simp only
    rw [show postpone w.mapBlockIndex _ _ _ _ = _ from hpost]
    simp only [h2]

end

/-- A call that ends with its walk from `tip` to `tip'` committed, after which it told about
`lost`. -/
theorem notified_iff_lost {ds us lost : List Uint256} {tip' : Uint256} (hc : Coherent E g w tip)
    (hc' : Coherent E g w' tip') (hs : SameBlocks w w')
    (hd : Down (parent w.mapBlockIndex) tip ds f)
    (hu : Up (parent w.mapBlockIndex) f us tip')
    (ht : Told w w' (w.blockSync false ds ++ w.blockSync true (us ++ lost)))
    (hlost : ∀ x ∈ lost, HasBlock w x ∧ parent w.mapBlockIndex x = some tip') :
    Notified w w' ↔ lost = [] := by
  constructor
  · rintro ⟨t, t', f', ds', us', ht1, ht1', hd', hu', htold⟩
    obtain rfl := some.inj (hc'.hashBest.symm.trans ht1')
    rcases eq_nil_or_concat lost with hn | ⟨init, x, rfl⟩
    · exact hn
    · obtain ⟨hx, hpar⟩ := hlost x (by simp)
      have heq := htold.unique ht
      rw [concat_eq_append, ← append_assoc us, blockSync_append, ← append_assoc] at heq
      refine absurd heq (blockSync_ne_of_lost hc.toIndexed (fun c hpc => hs.hasBlock.1 ?_)
        hu' hx hpar _)
      exact hc'.reads.hasBlock (.refl _) (by rw [hs.tree.parent]; exact hpc)
  · rintro rfl
    rw [append_nil] at ht
    exact ⟨tip, tip', f, ds, us, hc.hashBest, hc'.hashBest, hd, hu, ht⟩

theorem notified_iff_nothing (hc : Coherent E g w tip)
    (hc' : Coherent E g w' tip) (ht : Told w w' (w.blockSync false ds ++ w.blockSync true us))
    (hds : ∀ x ∈ ds, HasBlock w x) (hus : ∀ x ∈ us, HasBlock w x ∧ OffBranch w tip x) :
    Notified w w' ↔ ds = [] ∧ us = [] := by
  constructor
  · rintro ⟨t, t', f', ds', us', ht1, ht1', hd', hu', htold⟩
    obtain rfl := some.inj (hc.hashBest.symm.trans ht1)
    obtain rfl := some.inj (hc'.hashBest.symm.trans ht1')
    exact blockSync_eq_of_walk hc.toIndexed hd' hu' hds hus hc.reads (htold.unique ht)
  · rintro ⟨rfl, rfl⟩
    exact ⟨tip, tip, tip, [], [], hc.hashBest, hc'.hashBest, .nil _, .nil _, ht⟩

/-- The index, the files, the database and the log are as they were. -/
structure PointersOnly (w w' : World) : Prop where
  index : w'.mapBlockIndex = w.mapBlockIndex
  files : w'.files = w.files
  db : w'.txdb = w.txdb
  genesis : w'.pindexGenesisBlock = w.pindexGenesisBlock
  log : w'.walletLog = w.walletLog

instance : IsPreorder World PointersOnly where
  refl _ := ⟨rfl, rfl, rfl, rfl, rfl⟩
  trans _ _ _ h1 h2 := ⟨h2.index.trans h1.index, h2.files.trans h1.files, h2.db.trans h1.db,
    h2.genesis.trans h1.genesis, h2.log.trans h1.log⟩

theorem newBestBlock_keeps (hash p : Uint256) : Keeps PointersOnly (newBestBlock hash p) := by
  refine .bind (deref_keeps _) fun new =>
    Keeps.bind (.modify fun w => ⟨rfl, rfl, rfl, rfl, rfl⟩) fun _ =>
      Keeps.ite ?_ (.pure _)
  exact .bind (deref_keeps _) fun _ => .pure _

section

variable (hc : Inv E g w tip) (hnc : NoCollision E w.files.txs)
  (he : w.mapBlockIndex.lookup p = some e) (hprev : e.pprev = some q)
  (hst : Stored E w.files p q e block)
include hc hnc he hprev hst

/-- `SetBestChain` returns `true`. -/
theorem notified_iff_of_ok (h : setBestChain E ctx block p w = .ok () w') :
    Notified w w' ↔ batchesKept E ctx block p w = true := by
  have hat : w.blockAt p = some block := by rw [World.blockAt, he]; exact hst.read
  have hpar : parent w.mapBlockIndex p = some q := parent_eq_some.2 ⟨e, he, hprev⟩
  obtain ⟨_, w1, h1, k⟩ := bind_eq_ok.1 h
  obtain ⟨-, rfl⟩ := txnBegin_eq_ok h1
  obtain ⟨_, w2, h2, k2⟩ := bind_eq_ok.1 k
  have hnew : PointersOnly w2 w' := (newBestBlock_keeps _ _).ok k2
  have hend : Told w2 w' [] := .of_log hnew.log
  have hs' : SameBlocks w2 w' := .of_eq hnew.index hnew.files
  unfold attachBlock at h2
  rw [get_bind_apply] at h2
  rw [if_neg (by simp [hc.genesis])] at h2
  split_ifs at h2 with hd
  · -- the block is connected on top of the best block
    rw [mapError_eq_ok] at h2
    obtain ⟨t⟩ := setBestChainInner_spec h2
    obtain rfl : q = tip := by rw [← hst.prev, hd, hc.hashBestChain]
    obtain ⟨hc2, hs2⟩ := t.coherent hc.toCoherent hnc he hprev hst
    have htold : Told w w2 (syncBlock block true) := t.told
    have hsync : w.blockSync false [] ++ w.blockSync true ([p] ++ []) =
      syncBlock block true ++ [] := by
      rw [append_nil [p], blockSync_cons w true hat]
      rfl
    rw [notified_iff_lost hc.toCoherent (hc2.congr hnew.index hnew.files hnew.db hnew.genesis)
      (hs2.trans hs') (.nil q) (.cons hpar (.nil p)) (hsync ▸ htold.trans hend)
      (by simp), batchesKept, if_pos hd, innerKept, h2]
    simp [isOk]
  · obtain ⟨f, ds, us, q', lost, hdown, hup, hc2, hs2, htold, hlost, hiff⟩ :=
      switchChain_told hc hnc hd h2
    rw [← hiff]
    have htold' := htold.trans hend
    rw [append_nil] at htold'
    exact notified_iff_lost hc.toCoherent (hc2.congr hnew.index hnew.files hnew.db hnew.genesis)
      (hs2.trans hs') hdown hup htold' hlost

/-- `SetBestChain` returns `false`: the committed tip is as before. -/
theorem notified_iff_of_false (h : setBestChain E ctx block p w = .error s w')
    (hs : s.returnsFalse = true) : Notified w w' ↔ batchesKept E ctx block p w = true := by
  have hat : w.blockAt p = some block := by rw [World.blockAt, he]; exact hst.read
  have hpar : parent w.mapBlockIndex p = some q := parent_eq_some.2 ⟨e, he, hprev⟩
  obtain ⟨hinv, hsame⟩ := setBestChain_inv_of_false hc he hprev hst h hs
  rcases bind_eq_error.1 h with h | ⟨_, w1, h1, h⟩
  · exact absurd hs (txnBegin_noFalse _ _ _ h)
  obtain ⟨-, rfl⟩ := txnBegin_eq_ok h1
  rcases bind_eq_error.1 h with h | ⟨_, w2, -, h⟩
  swap
  · exact absurd hs (newBestBlock_noFalse _ _ _ _ _ h)
  unfold attachBlock at h
  rw [get_bind_apply] at h
  rw [if_neg (by simp [hc.genesis])] at h
  split_ifs at h with hd
  · obtain ⟨s', h', rfl⟩ := mapError_eq_error.1 h
    have hs' := Stop.returnsFalse_of_report hs
    obtain rfl : q = tip := by rw [← hst.prev, hd, hc.hashBestChain]
    have hend := setBestChainInner_told_false h' hs'
    have htold : Told w w' _ := hend
    rw [batchesKept, if_pos hd, innerKept, h']
    cases hcon : connectBlock E ctx block p { w with txdb := w.txdb.begin } with
    | error s1 w1 =>
      rw [hcon] at htold
      have hnone : Told w w' (w.blockSync false [] ++ w.blockSync true ([] ++ [])) := htold
      rw [notified_iff_lost hc.toCoherent hinv.toCoherent hsame (.nil q) (.nil q) hnone (by simp)]
      simp [isOk]
    | ok _ w1 =>
      -- the block was connected and told, and its batch could not be written
      rw [hcon] at htold
      obtain ⟨c⟩ := connectBlock_spec hcon
      have hsync : Told w w' (w.blockSync false [] ++ w.blockSync true ([] ++ [p])) := by
        rw [nil_append [p], blockSync_cons w true hat]
        simpa [World.blockSync, isOk] using htold
      have hlost : ∀ x ∈ [p], HasBlock w x ∧ parent w.mapBlockIndex x = some q := by
        intro x hx
        obtain rfl := mem_singleton.1 hx
        exact ⟨⟨block, hat, c.sane.vtx_ne⟩, hpar⟩
      rw [notified_iff_lost hc.toCoherent hinv.toCoherent hsame (.nil q) (.nil q) hsync hlost]
      simp [isOk]
  · obtain ⟨pI, ds, us, ht, hkept⟩ := switchChain_told_false hc hnc hd h hs
    rw [notified_iff_nothing hc.toCoherent hinv.toCoherent ht.told ht.disconnected ht.connected,
      ht.touched, hkept]
    simp

end

/-- **When the notifications match the committed chain.**  In a coherent state, for a stored block,
the notifications of a call of `SetBestChain` are those of a walk from the tip that was committed to
the tip that is, exactly when no batch is given up in which a block was connected or
disconnected. -/
theorem setBestChain_notified_iff (hc : Inv E g w tip) (hnc : NoCollision E w.files.txs)
    (he : w.mapBlockIndex.lookup p = some e) (hprev : e.pprev = some q)
    (hrd : w.files.readBlock e.nFile e.nBlockPos = some block)
    (h : Returns (setBestChain E ctx block p) w w') :
    Notified w w' ↔ batchesKept E ctx block p w = true := by
  obtain ⟨b, hst⟩ := hc.stored p e q he hprev
  obtain rfl : block = b := some.inj (hrd.symm.trans hst.read)
  rcases h with ⟨_, h⟩ | ⟨s, h, hs⟩
  · exact notified_iff_of_ok hc hnc he hprev hst h
  · exact notified_iff_of_false hc hnc he hprev hst h hs

open Simnet

/-- A branch that is denied: nothing is told. -/
theorem setBestChain_notified_denied : ∃ w w' e, Inv env (hash 0) w (hash 2) ∧
    NoCollision env w.files.txs ∧
      w.mapBlockIndex.lookup (Simnet.hash 5) = some e ∧ e.pprev = some (Simnet.hash 3) ∧
      w.files.readBlock e.nFile e.nBlockPos = some (Shape.block ⟨0, 1⟩ 5) ∧
      Returns (setBestChain env (context false true) (Shape.block ⟨0, 1⟩ 5) (hash 5)) w w' ∧
      (Notified w w' ↔ batchesKept env (context false true)
        (Shape.block ⟨0, 1⟩ 5) (hash 5) w = true) := by
  obtain ⟨w, -, hr, hsim⟩ := exists_fork (s := ⟨0, 1⟩) (N := 1) rfl (by decide) (by decide)
  have hmem : 5 ∈ forkCodes ⟨0, 1⟩ 1 (1 + 1) := side_mem (k := 2) (by decide) le_rfl
  obtain ⟨s, w', hrun, hs⟩ := hsim.denied (c := 5) hr (main_mem le_rfl) (by decide)
    hmem (side_mem (k := 1) (by decide) (by decide)) rfl (by decide)
  obtain ⟨e, he, hprev⟩ := parent_eq_some.1 (hsim.parent hmem (by decide))
  obtain ⟨block, hst⟩ := hr.stored _ e _ he hprev
  obtain rfl := hsim.block_eq (by decide) hst
  have hnc := noCollision hsim.blocks
  have hret : Returns (setBestChain env (context false true)
    (Shape.block ⟨0, 1⟩ 5) (hash 5)) w w' := .inr ⟨s, hrun, hs⟩
  exact ⟨w, w', e, hr.toInv, hnc, he, hprev, hst.read, hret,
    setBestChain_notified_iff hr.toInv hnc he hprev hst.read hret⟩

/-- **A switch that fails midway has told the wallets about a block that is still the committed
tip.** -/
theorem setBestChain_not_notified :
    ∃ w w', Run env (Shape.block ⟨4999, 10001⟩ 0) (fun _ _ => True) w ∧
      (Call.setBestChain (context true true) (Shape.block ⟨4999, 10001⟩ 10003)
        (hash 10003)).Allowed w ∧
      Returns (setBestChain env (context true true)
        (Shape.block ⟨4999, 10001⟩ 10003) (hash 10003)) w w' ∧
      w'.txdb.pdb.lookup .hashBestChain = w.txdb.pdb.lookup .hashBestChain ∧ ¬ Notified w w' := by
  obtain ⟨w, hany, hr, hsim⟩ := exists_fork (s := ⟨4999, 10001⟩)
    (N := 5000) rfl (by decide) (by decide)
  obtain ⟨plan, w1, w2, w3, s, hplan, hdis, hreorg, hs⟩ := reorganize_bad (a := true)
    (b := true) hsim (Set.Subset.refl _) hr (by decide) (by decide) (by decide) rfl (.inl rfl)
  have hmem : 10003 ∈ forkCodes ⟨4999, 10001⟩ 5000 (5000 + 1) :=
    side_mem (k := 5001) (by decide) le_rfl
  have htip : 10000 ∈ forkCodes ⟨4999, 10001⟩ 5000 (5000 + 1) :=
    main_mem (k := 5000) le_rfl
  have hp1 : parent w.mapBlockIndex (Simnet.hash 10003) = some (Simnet.hash 10001) :=
    hsim.parent hmem (by decide)
  obtain ⟨e, he, hprev⟩ := parent_eq_some.1 hp1
  obtain ⟨block, hst⟩ := hr.stored _ e _ he hprev
  obtain rfl := hsim.block_eq (by decide) hst
  have hnc := noCollision hsim.blocks
  obtain ⟨t, ht, -, -, htt, -⟩ := hsim.lookup htip
  have hpost := hsim.postpone_here (t := 10000) hmem (side_mem (k := 5000)
    (by decide) (by decide)) (by decide) (by decide) (by decide)
    (height w.mapBlockIndex (hash 10003)) []
  rw [← htt] at hpost
  have hne : (Shape.block ⟨4999, 10001⟩ 10003).hashPrevBlock ≠ Simnet.hash 10000 := by
    decide
  obtain ⟨s', w', hrun, hs', -⟩ :=
    setBestChain_of_reorganize_false hr.toInv ht he hprev hne hpost hreorg hs
  obtain ⟨hinv, -⟩ := setBestChain_inv_of_false hr.toInv he hprev hst hrun hs'
  refine ⟨w, w', hany, ⟨e, _, he, hprev, hst.read⟩, .inr ⟨s', hrun, hs'⟩,
    hinv.hashBest.trans hr.hashBest.symm, ?_⟩
  rw [notified_iff_of_false hr.toInv hnc he hprev hst hrun hs', batchesKept,
    if_neg (by rw [hr.hashBestChain]; exact hne),
    show w.pindexBest.bind w.mapBlockIndex.lookup = some t by rw [hr.best]; exact ht]
  simp only [hpost, hreorg]
  -- the main chain was disconnected before the side branch turned out to be bad
  obtain ⟨c⟩ := planReorganize_spec hplan
  obtain ⟨hi1, hrd1, hs1, -, hdown, -, -⟩ := planReorganize_begin hr.toCoherent hr.best hplan
  have hmeet := c.meet hr.tree
  obtain ⟨ks, hk⟩ := disconnectBranch_told (context true true) plan.nReorgMax [] hi1 hrd1
    (by rw [hs1.files]; exact hnc) (by rw [hs1.tree.parent]; exact hdown)
  rw [hdis] at hk
  have hfirst : disconnectsFirst env (context true true) plan.vDisconnect w1 =
    true := by
    by_contra hf
    have hnil : plan.vDisconnect = [] := (hk.all rfl).symm.trans (hk.none.2 (by simpa using hf))
    rw [hnil] at hdown
    have hpf : plan.pfork = Simnet.hash 10000 := hdown.reverse.eq_of_nil
    have hside := hmeet.right
    rw [hpf] at hside
    have hsideMem : 10001 ∈ forkCodes ⟨4999, 10001⟩ 5000 (5000 + 1) :=
      side_mem (k := 5000) (by decide) (by decide)
    have heq := hside.eq_of_height hr.tree.graded (.of_parent hp1) (by
      rw [hsim.height htip, hsim.height hsideMem])
    exact absurd ((hash_inj (by decide) (by decide)).1 heq) (by decide)
  simp [reorgTouches, hplan, hfirst]

end Espers
