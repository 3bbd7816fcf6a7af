import Espers.Chain.Simfork

/-!
# What single calls guarantee

The results of the other modules about one call of a function, with the runs of the simulated
network that show them at work.

* `disconnectBlock_connectBlock` : **`DisconnectBlock` undoes `ConnectBlock`.**
* `moneySupply_bound` : **the inflation bound**: a connected block raises the supply by at most its
  subsidy.
* `setBestChain_atomic` : **a failed switch is atomic for the chain state.**
* `reorganize_rolling` : **the rolling checkpoint**: the fork is not below the checkpoint, whatever
  the globals of the checkpoint were.
* `reorganize_depth_iff` : an unauthorised reorganisation respects `BLOCK_REORG_MAX_DEPTH` exactly
  when the two tips have a common grandparent.
-/

namespace Espers

open Exec Option BlockMap Forest

variable {E : Env} {ctx : Ctx} {p : Uint256} {w w' : World} {block : CBlock}

/-! ### Connecting and disconnecting -/

/-- **`DisconnectBlock` undoes `ConnectBlock`.**  If none of the transactions of a connected block
had an index entry, disconnecting the block succeeds, every index entry is again what it was, and
the record of the previous block has no successor. -/
theorem disconnectBlock_connectBlock {ctx : Ctx} {block : CBlock} {p : Uint256} {w' : World}
    (h : connectBlock E ctx block p w = .ok () w')
    (hfresh : ∀ tx ∈ block.vtx, w.txdb.readTxIndex (E.txHash tx) = none) :
    ∃ w'', disconnectBlock E block p w' = .ok () w'' ∧
      (∀ hash, w''.txdb.readTxIndex hash = w.txdb.readTxIndex hash) ∧
      ∀ e q d, w.mapBlockIndex.lookup p = some e → e.pprev = some q →
        w.mapBlockIndex.lookup q = some d →
        ∃ r : CDiskBlockIndex, w''.txdb.read
          (.blockindex ((CDiskBlockIndex.ofIndex d).getBlockHash E)) = some r ∧ r.hashNext = 0 := by
  obtain ⟨c⟩ := connectBlock_spec h
  have hframe := c.frame (M := {p}) rfl
  have hprev' : ∀ q, c.e.pprev = some q → (w'.mapBlockIndex.lookup q).isSome := by
    intro q hq
    have hsk := hframe.skeleton q
    have hs := c.prev_some (by simp [hq])
    rw [c.prev_eq, hq, bind_some] at hs
    rw [← isSome_map (f := CBlockIndex.skeleton), hsk, isSome_map]
    exact hs
  obtain ⟨txdb, hrun, hview⟩ :=
    disconnectBlock_undo c.spendable ⟨hfresh, c.sane.nodup⟩ c.view c.entry' rfl (by
      intro hs
      obtain ⟨q, hq⟩ := isSome_iff_exists.1 hs
      rw [hq, bind_some]
      exact hprev' q hq)
  refine ⟨_, hrun, fun hash => ?_, fun e q d he hq hd => ?_⟩
  · have hv : (writeHashNext E ((c.e.minted c.prev c.t).pprev.bind fun q =>
      w'.mapBlockIndex.lookup q)
        0 txdb).view hash = txdb.view hash := congrFun (view_writeHashNext _ _) hash
    rw [hview] at hv
    exact hv
  · obtain rfl : c.e = e := by
      have := c.entry
      rw [he, some.injEq] at this
      exact this.symm
    obtain ⟨d', hd'⟩ := isSome_iff_exists.1 (hprev' q hq)
    obtain ⟨d0, hd0, hsk⟩ := skeleton_lookup (hframe.skeleton q) hd'
    obtain rfl : d0 = d := by rw [hd, some.injEq] at hd0; exact hd0.symm
    have hpn : (c.e.minted c.prev c.t).pprev.bind (fun q => w'.mapBlockIndex.lookup q) =
      some d' := by
      have : (c.e.minted c.prev c.t).pprev = some q := hq
      rw [this, bind_some, hd']
    have hkey : (CDiskBlockIndex.ofIndex d').getBlockHash E =
        (CDiskBlockIndex.ofIndex d0).getBlockHash E := by
      have h := congrArg (fun x : CBlockIndex => (CDiskBlockIndex.ofIndex x).getBlockHash E) hsk
      exact h
    refine ⟨{ CDiskBlockIndex.ofIndex d' with hashNext := 0 }, ?_, rfl⟩
    rw [← hkey]
    simp only [hpn]
    exact read_writeHashNext txdb d' 0

open Simnet

/-- The fifth block of the simulated network. -/
theorem disconnectBlock_mainChain : ∃ ctx w w', connectBlock env ctx (Shape.block ⟨0, 1⟩ 10)
    (hash 10) w = .ok () w' ∧ ∃ w'', disconnectBlock env (Shape.block ⟨0, 1⟩ 10)
      (hash 10) w' = .ok () w'' ∧ (∀ hash, w''.txdb.readTxIndex hash = w.txdb.readTxIndex hash) ∧
        ∀ e q d, w.mapBlockIndex.lookup (Simnet.hash 10) = some e → e.pprev = some q →
          w.mapBlockIndex.lookup q = some d →
          ∃ r : CDiskBlockIndex, w''.txdb.read (.blockindex
            ((CDiskBlockIndex.ofIndex d).getBlockHash env)) = some r ∧ r.hashNext = 0 := by
  obtain ⟨ctx, w, w', hrun, hfresh⟩ := exists_connected (s := ⟨0, 1⟩)
    (n := 4) rfl (by decide)
  exact ⟨ctx, w, w', hrun, disconnectBlock_connectBlock hrun hfresh⟩

/-- **The inflation bound.**  A connected block raises the supply by at most its subsidy without
fees. -/
theorem moneySupply_bound {ctx : Ctx} {block : CBlock} {p : Uint256} {w w' : World}
    (h : connectBlock E ctx block p w = .ok () w') :
    ∃ best e e' : CBlockIndex, (w.pindexBest.bind fun q => w.mapBlockIndex.lookup q) = some best ∧
      w.mapBlockIndex.lookup p = some e ∧ w'.mapBlockIndex.lookup p = some e' ∧
      (block.isProofOfStake = false → sub64 e'.nMoneySupply (w.parentSupply e) ≤
          if 980950 ≤ e.nHeight ∧ e.nHeight ≤ 989999 then 5000 * coin
          else getProofOfWorkReward best.nMoneySupply e.nHeight 0) ∧
      (block.isProofOfStake = true → ∃ nCoinAge,
        getCoinAge E w ctx w.txdb e.pprev (block.vtx.getD 1 default) = .ok nCoinAge ∧
        sub64 e'.nMoneySupply (w.parentSupply e) ≤
          getProofOfStakeReward best.nHeight best.nMoneySupply (wrap64 nCoinAge) 0) := by
  obtain ⟨c⟩ := connectBlock_spec h
  refine ⟨c.best, c.e, _, c.best_eq, c.entry, c.entry', fun hpos => ?_, fun hpos => ?_⟩
  · obtain ⟨hw, hle⟩ := c.reward_pow hpos
    have hsub := (c.supply_sub hw).trans hle
    unfold proofOfWorkSubsidy at hsub
    split_ifs at hsub ⊢ <;> first | exact hsub | (exfalso; omega)
  · obtain ⟨hw, nCoinAge, hage, heq⟩ := c.reward_pos hpos
    exact ⟨nCoinAge, hage, heq ▸ c.supply_sub hw⟩

/-- A block of the reserve phase of the simulated network. -/
theorem moneySupply_reserve : ∃ ctx w w', connectBlock env ctx (Shape.block ⟨0, 1⟩ 40)
    (hash 40) w = .ok () w' ∧ ∃ best e e' : CBlockIndex,
        (w.pindexBest.bind fun q => w.mapBlockIndex.lookup q) = some best ∧
        w.mapBlockIndex.lookup (Simnet.hash 40) = some e ∧
        w'.mapBlockIndex.lookup (Simnet.hash 40) = some e' ∧
        ((Shape.block ⟨0, 1⟩ 40).isProofOfStake = false → sub64 e'.nMoneySupply (w.parentSupply e) ≤
            if 980950 ≤ e.nHeight ∧ e.nHeight ≤ 989999 then 5000 * coin
            else getProofOfWorkReward best.nMoneySupply e.nHeight 0) ∧
        ((Shape.block ⟨0, 1⟩ 40).isProofOfStake = true → ∃ nCoinAge,
          getCoinAge env w ctx w.txdb e.pprev
          ((Shape.block ⟨0, 1⟩ 40).vtx.getD 1 default) = .ok nCoinAge ∧
          sub64 e'.nMoneySupply (w.parentSupply e) ≤
            getProofOfStakeReward best.nHeight best.nMoneySupply (wrap64 nCoinAge) 0) := by
  obtain ⟨ctx, w, w', hrun, -⟩ := exists_connected (s := ⟨0, 1⟩) (n := 19) rfl (by decide)
  exact ⟨ctx, w, w', hrun, moneySupply_bound hrun⟩

/-! ### Switching -/

/-- **A failed switch is atomic for the chain state.**  When `SetBestChain` returns `false`, every
record of the database but the best-invalid-trust one is unchanged, and so are the pointers to the
best block, every `pnext` link and the memory pool. -/
theorem setBestChain_atomic {e : Stop} (h : setBestChain E ctx block p w = .error e w')
    (he : e.returnsFalse = true) :
    (∀ k, k ≠ .bnBestInvalidTrust → w'.txdb.pdb.lookup k = w.txdb.pdb.lookup k) ∧
      w'.pindexBest = w.pindexBest ∧ w'.hashBestChain = w.hashBestChain ∧
      w'.nBestHeight = w.nBestHeight ∧ w'.nBestChainTrust = w.nBestChainTrust ∧
      (∀ q, (w'.mapBlockIndex.lookup q).map CBlockIndex.pnext =
        (w.mapBlockIndex.lookup q).map CBlockIndex.pnext) ∧
      w'.mempool = w.mempool := by
  obtain ⟨⟨M, -, hf⟩, -⟩ := setBestChain_false h he
  refine ⟨hf.db.lookup, hf.best, hf.hashBest, hf.bestHeight, hf.bestTrust, fun q => ?_, hf.pool⟩
  have hsk := congrArg (Option.map CBlockIndex.pnext) (hf.skeleton q)
  simpa [Function.comp_def, CBlockIndex.skeleton] using hsk

/-- A branch two blocks long that is denied. -/
theorem setBestChain_denied : ∃ e w w', setBestChain env (context false true) (Shape.block ⟨0, 1⟩ 5)
        (hash 5) w = .error e w' ∧ e.returnsFalse = true ∧
      (∀ k, k ≠ .bnBestInvalidTrust → w'.txdb.pdb.lookup k = w.txdb.pdb.lookup k) ∧
      w'.pindexBest = w.pindexBest ∧ w'.hashBestChain = w.hashBestChain ∧
      w'.nBestHeight = w.nBestHeight ∧ w'.nBestChainTrust = w.nBestChainTrust ∧
      (∀ q, (w'.mapBlockIndex.lookup q).map CBlockIndex.pnext =
        (w.mapBlockIndex.lookup q).map CBlockIndex.pnext) ∧
      w'.mempool = w.mempool := by
  obtain ⟨w, -, hr, hsim⟩ := exists_fork (s := ⟨0, 1⟩) (N := 1) rfl (by decide) (by decide)
  obtain ⟨e, w', hrun, he⟩ := hsim.denied (c := 5) hr (main_mem le_rfl) (by decide)
    (side_mem (k := 2) (by decide) le_rfl)
    (side_mem (k := 1) (by decide) (by decide)) rfl (by decide)
  exact ⟨e, w, w', hrun, he, setBestChain_atomic hrun he⟩

/-- **The rolling checkpoint.**  The walk to the checkpoint never runs past genesis; and when
`Reorganize` succeeds, the ancestor of the best block at the height of the checkpoint is an ancestor
of the new block, the fork is not below it, and no block at or below it is disconnected.  What the
globals `RollingBlock` and `RollingHeight` held before does not matter. -/
theorem reorganize_rolling {E : Env} {ctx : Ctx} {w : World} {root : Uint256}
    (ht : IndexTree w.mapBlockIndex root) :
    (∀ p nHeight, (w.mapBlockIndex.lookup p).isSome →
      ∃ b w', rollingCheckpoints nHeight p w = .ok b w') ∧
    ∀ p w', reorganize E ctx p w = .ok () w' →
      ∃ plan w1 pBest best new pCkpt, planReorganize ctx p w = .ok plan w1 ∧
        w.pindexBest = some pBest ∧ w.mapBlockIndex.lookup pBest = some best ∧
        w.mapBlockIndex.lookup p = some new ∧
        IsMeet (parent w.mapBlockIndex) plan.pfork pBest p ∧
        Anc (parent w.mapBlockIndex) pBest pCkpt ∧
        (height w.mapBlockIndex pCkpt : ℤ) = min best.nHeight new.nHeight -
          (blockTempCheckpointDepth + blockReorgThreshold) ∧
        Anc (parent w.mapBlockIndex) p pCkpt ∧
        height w.mapBlockIndex pCkpt ≤ height w.mapBlockIndex plan.pfork ∧
        ∀ x ∈ plan.vDisconnect, height w.mapBlockIndex pCkpt < height w.mapBlockIndex x := by
  refine ⟨fun p nHeight hp => rollingCheckpoints_ok ht hp nHeight, fun p w' h => ?_⟩
  obtain ⟨plan, w1, hplan⟩ := planReorganize_of_reorganize h
  obtain ⟨c⟩ := planReorganize_spec hplan
  obtain ⟨hb, hn, hh⟩ := c.checkpoint ht
  have hf := (c.fork_above ht).height_le ht.graded
  refine ⟨plan, w1, c.pBest, c.best, c.new, c.pCkpt, hplan, c.pindexBest, c.best_eq, c.new_eq,
    c.meet ht, hb, hh, hn, hf, fun x hx => ?_⟩
  have := ((c.down.mem_iff ht.graded).1 hx).2
  omega

/-- A node that nobody has authorised switches between two branches. -/
theorem exists_switch {k : ℕ} (hlow : 4879 ≤ k) (hhigh : k < 5000) :
    ∃ w w', AnyRun ⟨k, 20001⟩ w ∧ Ready env (hash 0) w (hash 10000) ∧
      Sim ⟨k, 20001⟩ (forkCodes ⟨k, 20001⟩ 5000 5001) 10002 w ∧
      reorganize env (context false false) (hash 10003) { w with txdb := w.txdb.begin } =
        .ok () w' := by
  obtain ⟨w, hany, hr, hsim⟩ := exists_fork (s := ⟨k, 20001⟩) (N := 5000)
    (by decide : 20001 % 2 = 1) hhigh (by decide)
  obtain ⟨w', hrun, -⟩ := reorganize_side (a := false) (b := false) hsim (Set.Subset.refl _) hr
    hhigh le_rfl (Nat.sub_le_iff_le_add.1 hlow) (by decide : 5001 < 20001 / 2) (.inr rfl)
  exact ⟨w, w', hany, hr, hsim, hrun⟩

/-- A switch between two branches of the simulated network. -/
theorem reorganize_rolling_side : ∃ w w', IndexTree w.mapBlockIndex (hash 0) ∧
      reorganize env (context false false) (hash 10003) w = .ok () w' ∧
      ∃ plan w1 pBest best new pCkpt,
        planReorganize (context false false) (hash 10003) w = .ok plan w1 ∧
        w.pindexBest = some pBest ∧ w.mapBlockIndex.lookup pBest = some best ∧
        w.mapBlockIndex.lookup (Simnet.hash 10003) = some new ∧
        IsMeet (parent w.mapBlockIndex) plan.pfork pBest (hash 10003) ∧
        Anc (parent w.mapBlockIndex) pBest pCkpt ∧
        (height w.mapBlockIndex pCkpt : ℤ) = min best.nHeight new.nHeight -
          (blockTempCheckpointDepth + blockReorgThreshold) ∧
        Anc (parent w.mapBlockIndex) (hash 10003) pCkpt ∧
        height w.mapBlockIndex pCkpt ≤ height w.mapBlockIndex plan.pfork ∧
        ∀ x ∈ plan.vDisconnect, height w.mapBlockIndex pCkpt < height w.mapBlockIndex x := by
  obtain ⟨w, w', -, hr, -, hrun⟩ := exists_switch (k := 4999) (by decide) (by decide)
  exact ⟨{ w with txdb := w.txdb.begin }, w', hr.tree, hrun,
    (reorganize_rolling (w := { w with txdb := w.txdb.begin }) hr.tree).2 _ w' hrun⟩

/-- **When the depth limit holds.**  A reorganisation that no Demi-node, roll-back or setting has
authorised disconnects at most `BLOCK_REORG_MAX_DEPTH` blocks exactly when the grandparent of the
new block is the parent of the best block: the code compares the heights of the two tips and does
not look at the fork. -/
theorem reorganize_depth_iff {E : Env} {ctx : Ctx} {w w' : World} {root p : Uint256}
    (ht : IndexTree w.mapBlockIndex root)
    (hpeer : ctx.fDemiPeerRelay = false ∨ ctx.fDemiNodes = false)
    (hroll : w.fRollbacktoBlock = false) (htype : ctx.peerReorgType = 0)
    (h : reorganize E ctx p w = .ok () w') :
    ∃ plan w1 pBest, planReorganize ctx p w = .ok plan w1 ∧ w.pindexBest = some pBest ∧
      (((plan.vDisconnect.length : ℤ) ≤ blockReorgMaxDepth) ↔
        (parent w.mapBlockIndex p).bind (parent w.mapBlockIndex) =
          parent w.mapBlockIndex pBest) := by
  obtain ⟨plan, w1, hplan⟩ := planReorganize_of_reorganize h
  obtain ⟨c⟩ := planReorganize_spec hplan
  have hauth : authorized ctx w.fRollbacktoBlock = false := by
    rcases hpeer with hp | hp <;> simp [authorized, hp, hroll]
  refine ⟨plan, w1, c.pBest, hplan, c.pindexBest, ?_⟩
  rw [← c.length_le_one_iff ht (c.unauthorised hauth htype)]
  have hone : blockReorgMaxDepth = 1 := rfl
  omega

/-- A switch that disconnects one block. -/
theorem reorganize_depth_one :
    ∃ w w', IndexTree w.mapBlockIndex (hash 0) ∧ w.fRollbacktoBlock = false ∧
      reorganize env (context false false) (hash 10003) w = .ok () w' ∧
      ∃ plan w1 pBest, planReorganize (context false false) (hash 10003) w = .ok plan w1 ∧
        w.pindexBest = some pBest ∧
        (((plan.vDisconnect.length : ℤ) ≤ blockReorgMaxDepth) ↔
          (parent w.mapBlockIndex (hash 10003)).bind
          (parent w.mapBlockIndex) = parent w.mapBlockIndex pBest) := by
  obtain ⟨w, w', -, hr, -, hrun⟩ := exists_switch (k := 4999) (by decide) (by decide)
  exact ⟨{ w with txdb := w.txdb.begin }, w', hr.tree, hr.rollback, hrun,
    reorganize_depth_iff (w := { w with txdb := w.txdb.begin }) hr.tree (.inl rfl)
    hr.rollback rfl hrun⟩

/-- **A switch that nobody has authorised disconnects two blocks.** -/
theorem reorganize_depth_two :
    ∃ w w' plan w1, Run env (Shape.block ⟨4998, 20001⟩ 0) (fun _ _ => True) w ∧
      (context false false).fDemiPeerRelay = false ∧
      (context false false).peerReorgType = 0 ∧ w.fRollbacktoBlock = false ∧
      reorganize env (context false false) (hash 10003)
        { w with txdb := w.txdb.begin } = .ok () w' ∧
      planReorganize (context false false) (hash 10003)
        { w with txdb := w.txdb.begin } = .ok plan w1 ∧
      ¬ ((plan.vDisconnect.length : ℤ) ≤ blockReorgMaxDepth) := by
  obtain ⟨w, w', hany, hr, hsim, hrun⟩ := exists_switch (k := 4998) (by decide) (by decide)
  obtain ⟨plan, w1, hplan⟩ := planReorganize_of_reorganize hrun
  refine ⟨w, w', plan, w1, hany, rfl, rfl, hr.rollback, hrun, hplan, fun hle => ?_⟩
  obtain ⟨c⟩ := planReorganize_spec hplan
  have hroll : ({ w with txdb := w.txdb.begin } : World).fRollbacktoBlock = false := hr.rollback
  have hpb : c.pBest = Simnet.hash 10000 := some.inj (c.pindexBest.symm.trans hr.best)
  have hone : blockReorgMaxDepth = 1 := rfl
  have hiff := (c.length_le_one_iff hr.tree (c.unauthorised (by rw [hroll]; rfl) rfl)).1 (by omega)
  rw [hpb] at hiff
  -- the grandparent of the new block and the parent of the best block are on different branches
  have h1 : parent w.mapBlockIndex (Simnet.hash 10003) = some (Simnet.hash 10001) :=
    hsim.parent (side_mem (k := 5001) (by decide) le_rfl) (by decide)
  have h2 : parent w.mapBlockIndex (Simnet.hash 10001) = some (Simnet.hash 9999) :=
    hsim.parent (side_mem (k := 5000) (by decide) (by decide)) (by decide)
  have h3 : parent w.mapBlockIndex (Simnet.hash 10000) = some (Simnet.hash 9998) :=
    hsim.parent (main_mem le_rfl) (by decide)
  simp only [h1, h2, h3, bind_some, some.injEq] at hiff
  exact absurd ((hash_inj (by decide) (by decide)).1 hiff) (by decide)

end Espers
