import Espers.Chain.Simnet

/-!
# Side branches on the simulated network

The side branch of a `Shape` leaves the main chain at the height `fork` and is one block longer than
it in the end.

* `exists_fork` : **a node can be led to hold a side branch of any depth** that it has refused to
  switch to.
* `reorganize_side` : the switch to that branch succeeds once the peer that asks is a Demi-node, or
  Demi-nodes are off, whatever its depth down to the rolling checkpoint.
* `exists_swallowed` : **a block that cannot be connected becomes the best block**, when it is the
  one after the first block with more trust.
-/

namespace Espers.Simnet

open Exec Option Set List BlockMap Nat Forest Shape

variable {s : Shape} {c d t u k n N j : ℕ} {a b : Bool} {D : Set ℕ} {w w' w1 : World}
  {e : CBlockIndex}

/-- The codes of the side branch from above height `f` up to height `j`. -/
def sideCodes (f j : ℕ) : Set ℕ := {c | c % 2 = 1 ∧ f < c / 2 ∧ c / 2 ≤ j}

/-- The codes of the main chain up to height `N` and of the side branch up to height `j`. -/
def forkCodes (s : Shape) (N j : ℕ) : Set ℕ := mainCodes N ∪ sideCodes s.fork j

theorem forkCodes_start (s : Shape) (N : ℕ) : forkCodes s N s.fork = mainCodes N := by
  ext c
  simp only [forkCodes, mainCodes, sideCodes, mem_union, mem_ofPred_eq]
  omega

theorem forkCodes_succ (s : Shape) (N : ℕ) (hj : s.fork ≤ j) :
    insert (2 * (j + 1) + 1) (forkCodes s N j) = forkCodes s N (j + 1) := by
  ext c
  simp only [forkCodes, mainCodes, sideCodes, mem_union, mem_insert_iff, mem_ofPred_eq]
  omega

theorem main_mem (hk : k ≤ N) : 2 * k ∈ forkCodes s N j := .inl ⟨by omega, by omega⟩

theorem side_mem (hk : s.fork < k) (hj : k ≤ j) : 2 * k + 1 ∈ forkCodes s N j :=
  .inr ⟨by omega, by omega, by omega⟩

theorem side_not_mem (hj : j < k) : 2 * k + 1 ∉ forkCodes s N j := by
  rintro (h | h)
  · have := h.1
    omega
  · have := h.2.2
    omega

theorem parent_side_first : s.parent (2 * (s.fork + 1) + 1) = 2 * s.fork :=
    if_pos ⟨by omega, by omega⟩

theorem parent_side (hj : s.fork < j) : s.parent (2 * (j + 1) + 1) = 2 * j + 1 := by
  rw [Shape.parent, if_neg (by omega)]
  omega

theorem parent_side_mem (hf : s.fork ≤ N) (hj : s.fork ≤ j) :
    s.parent (2 * (j + 1) + 1) ∈ forkCodes s N j := by
  rcases eq_or_lt_of_le hj with rfl | hlt
  · rw [parent_side_first]
    exact main_mem hf
  · rw [parent_side hlt]
    exact side_mem hlt le_rfl

namespace Sim

/-- **A block of the network that is not above the best block is kept aside.** -/
theorem aside (h : Sim s D n w) (hr : Ready env (hash 0) w (hash t)) (ht : t ∈ D) (hn : n < codes)
    (h2 : 2 ≤ c) (hc : c < codes) (hnew : c ∉ D) (hp : s.parent c ∈ D) (hle : c / 2 ≤ t / 2) :
    ∃ w', acceptBlock env (context a b) (s.block c) w = .ok () w' ∧ Ready env (hash 0) w' (hash t) ∧
      Sim s (insert c D) (n + 1) w' := by
  obtain ⟨d, ha, hheight, htrust⟩ := h.acceptable (a := a) (b := b) hn h2 hc hnew hp
  obtain ⟨x, hx, -, -, hxt, -⟩ := h.lookup ht
  obtain ⟨e, w1, w', hrun, hr', hj, hroll⟩ := acceptBlock_side context_calm hr ha (by
    rw [htrust, trust_parent h2, hr.bestTrust x hx, hxt, gt_iff_lt, trust_lt_iff (h.mem t ht).1 hc]
    omega)
  refine ⟨w', hrun, hr', (h.indexed hn h2 hc hnew hheight htrust hj).of_sameBlocks ?_⟩
  rw [hroll.eq]
  exact .of_eq rfl rfl

theorem merge (h : Sim s D n w) (ht : t ∈ D) (hu : u ∈ D) : ∃ best new,
    w.mapBlockIndex.lookup (hash t) = some best ∧ w.mapBlockIndex.lookup (hash u) = some new ∧
      best.nHeight = t / 2 ∧ new.nHeight = u / 2 := by
  obtain ⟨best, hb, hbh, -⟩ := h.lookup ht
  obtain ⟨new, hn, hnh, -⟩ := h.lookup hu
  exact ⟨best, new, hb, hn, hbh, hnh⟩

theorem postpone_here (h : Sim s D n w) (hu : u ∈ D) (hp : s.parent u ∈ D) (ht : t < codes)
    (h2 : 2 ≤ u) (hle : u / 2 ≤ t / 2 + 1) (fuel : ℕ) (acc : List Uint256) :
    postpone w.mapBlockIndex (trust t) (fuel + 1) (hash u) acc = some (hash u, acc) := by
  obtain ⟨e, he, -, -, -, hprev⟩ := h.lookup hu
  obtain ⟨d, hd, -, -, hdt, -⟩ := h.lookup hp
  rw [if_neg (by omega)] at hprev
  have hph := parent_height (s := s) h2
  refine postpone_stop he hprev hd ?_
  rw [hdt, gt_iff_lt, trust_lt_iff ht (h.mem _ hp).1]
  omega

/-- A switch to a branch one block longer is denied when its peer is no Demi-node and Demi-nodes are
on. -/
theorem denied (h : Sim s D n w) (hr : Ready env (hash 0) w (hash t)) (ht : t ∈ D) (h2 : 2 ≤ c)
    (hcD : c ∈ D) (hp : s.parent c ∈ D) (hh : c / 2 = t / 2 + 1) (hne : s.parent c ≠ t) :
    ∃ s' w', setBestChain env (context false true) (s.block c) (hash c) w = .error s' w' ∧
      s'.returnsFalse = true := by
  have htlt := (h.mem t ht).1
  obtain ⟨best, new, hb, hnw, hbh, hnh⟩ := h.merge ht hcD
  obtain ⟨y, hy, -, -, hyt, -⟩ := h.lookup ht
  obtain ⟨e, he, -, -, -, hprev⟩ := h.lookup hcD
  rw [if_neg (by omega)] at hprev
  have hdeny : checkMerge (context false true) w.fRollbacktoBlock (mergeShape best new) =
      .error (.error "Reorganize() : Not toggled self as a Demi-node") := by
    have hgt : new.nHeight > best.nHeight := by omega
    have hone : ((new.nHeight : ℤ) - best.nHeight) = 1 := by omega
    simp [checkMerge, mergeShape, hgt, hone, rejectIf, blockReorgMaxDepth, context]
  have hpost := h.postpone_here hcD hp htlt h2 hh.le (BlockMap.height w.mapBlockIndex (hash c)) []
  rw [← hyt] at hpost
  obtain ⟨s', w', h', hs', -⟩ := setBestChain_of_reorganize_false hr.toInv hy he hprev
    (by rw [block_hashPrevBlock h2, ne_eq, hash_inj (h.mem _ hp).1 htlt]; exact hne) hpost
    (reorganize_denied (w := { w with txdb := w.txdb.begin }) hr.best hb hnw hdeny) rfl
  exact ⟨s', w', h', hs'⟩

/-- **A branch one block longer is refused**, and kept in the index. -/
theorem refuse (h : Sim s D n w) (hr : Ready env (hash 0) w (hash t)) (ht : t ∈ D) (hn : n < codes)
    (h2 : 2 ≤ c) (hc : c < codes) (hnew : c ∉ D) (hp : s.parent c ∈ D) (hh : c / 2 = t / 2 + 1)
    (hne : s.parent c ≠ t) :
    ∃ s' w', acceptBlock env (context false true) (s.block c) w = .error s' w' ∧
    s'.returnsFalse = true ∧ Ready env (hash 0) w' (hash t) ∧ Sim s (insert c D) (n + 1) w' := by
  obtain ⟨d, ha, hheight, htrust⟩ := h.acceptable (a := false) (b := true) hn h2 hc hnew hp
  obtain ⟨x, hx, -, -, hxt, -⟩ := h.lookup ht
  obtain ⟨e, w1, w', hrun, hr', hj, hs⟩ := acceptBlock_refused context_calm hr ha
    (by
      rw [htrust, trust_parent h2, hr.bestTrust x hx, hxt, gt_iff_lt,
        trust_lt_iff (h.mem t ht).1 hc]
      omega)
    fun e w1 hj hr1 => (h.indexed hn h2 hc hnew hheight htrust hj).denied hr1
      (mem_insert_of_mem c ht) h2 (mem_insert c D) (mem_insert_of_mem c hp) hh hne
  exact ⟨_, w', hrun, rfl, hr', (h.indexed hn h2 hc hnew hheight htrust hj).of_sameBlocks hs⟩

end Sim

/-! ### Reaching a fork -/

/-- Any run of the network. -/
abbrev AnyRun (s : Shape) : World → Prop := Run env (s.block 0) fun _ _ => True

theorem exists_side (hb : s.bad % 2 = 1) (hf : s.fork ≤ N) (hN : 4 * N + 10 < codes) (k : ℕ)
    (hk : s.fork + k ≤ N) :
    ∃ w, AnyRun s w ∧ Ready env (hash 0) w (hash (2 * N)) ∧
      Sim s (forkCodes s N (s.fork + k)) (N + 1 + k) w := by
  induction k with
  | zero =>
    obtain ⟨w, hrun, hr, hsim⟩ := exists_mainChain hb N (by omega)
    exact ⟨w, hrun.any, hr, by rw [add_zero, forkCodes_start]; exact hsim⟩
  | succ k ih =>
    obtain ⟨w, hrun, hr, hsim⟩ := ih (by omega)
    obtain ⟨w', hw', hr', hsim'⟩ := hsim.aside (c := 2 * (s.fork + k + 1) + 1) (a := false)
      (b := false) hr (main_mem le_rfl) (by omega) (by omega) (by omega) (side_not_mem (by omega))
      (parent_side_mem hf (by omega)) (by omega)
    rw [forkCodes_succ s N (by omega)] at hsim'
    exact ⟨w', hrun.step (c := .acceptBlock (context false false)
      (s.block (2 * (s.fork + k + 1) + 1))) trivial trivial (.inl ⟨(), hw'⟩), hr', hsim'⟩

/-- **A node can be led to hold a side branch of any depth**, one block longer than the main chain,
that it has refused to switch to. -/
theorem exists_fork (hb : s.bad % 2 = 1) (hf : s.fork < N) (hN : 4 * N + 10 < codes) :
    ∃ w, AnyRun s w ∧ Ready env (hash 0) w (hash (2 * N)) ∧
      Sim s (forkCodes s N (N + 1)) (2 * N + 2) w := by
  obtain ⟨w, hrun, hr, hsim⟩ := exists_side hb hf.le hN (N - s.fork) (by omega)
  rw [show s.fork + (N - s.fork) = N by omega] at hsim
  have hpar := parent_side (s := s) hf
  obtain ⟨s', w', hw', hs', hr', hsim'⟩ := hsim.refuse (c := 2 * (N + 1) + 1) hr (main_mem le_rfl)
    (by omega) (by omega) (by omega) (side_not_mem (by omega))
    (parent_side_mem hf.le hf.le) (by omega) (by omega)
  rw [forkCodes_succ s N hf.le] at hsim'
  refine ⟨w', hrun.step (c := .acceptBlock (context false true) (s.block (2 * (N + 1) + 1)))
    trivial trivial (.inr ⟨s', hw', hs'⟩), hr',
    { hsim' with length := hsim'.length.trans (by omega) }⟩

/-! ### Switching to the side branch -/

section

variable (h : Sim s D n w)
include h

theorem Sim.anc_main (hD : mainCodes N ⊆ D) (k : ℕ) :
    Anc (BlockMap.parent w.mapBlockIndex) (hash (2 * N)) (hash (2 * (N - k))) := by
  induction k with
  | zero => exact .refl _
  | succ k ih =>
    rcases lt_or_ge k N with hk | hk
    · have hpar : s.parent (2 * (N - k)) = 2 * (N - (k + 1)) := by
        rw [Shape.parent, if_neg (by omega)]
        omega
      have := h.parent (hD (show 2 * (N - k) ∈ mainCodes N from ⟨by omega, by omega⟩)) (by omega)
      rw [hpar] at this
      exact ih.trans (.of_parent this)
    · rw [show N - (k + 1) = N - k by omega]
      exact ih

theorem Sim.anc_side (k : ℕ) (hD : sideCodes s.fork (s.fork + k + 1) ⊆ D) :
    Anc (BlockMap.parent w.mapBlockIndex) (hash (2 * (s.fork + k + 1) + 1))
    (hash (2 * s.fork)) := by
  have hmem : 2 * (s.fork + k + 1) + 1 ∈ D := hD ⟨by omega, by omega, by omega⟩
  have hpar := h.parent hmem (by omega)
  induction k with
  | zero =>
    rw [add_zero, parent_side_first] at hpar
    exact .of_parent hpar
  | succ k ih =>
    have hsub : sideCodes s.fork (s.fork + k + 1) ⊆ D := fun x hx => hD ⟨hx.1, hx.2.1, by
      have := hx.2.2
      omega⟩
    have hmem' : 2 * (s.fork + k + 1) + 1 ∈ D := hsub ⟨by omega, by omega, by omega⟩
    rw [show s.fork + (k + 1) = s.fork + k + 1 by omega, parent_side (by omega)] at hpar
    exact .head hpar (ih hsub hmem' (h.parent hmem' (by omega)))

theorem Sim.anc_side_side (hk : s.fork < k) (j : ℕ)
    (hD : sideCodes s.fork (k + j) ⊆ D) : Anc (BlockMap.parent w.mapBlockIndex)
    (hash (2 * (k + j) + 1)) (hash (2 * k + 1)) := by
  induction j with
  | zero => exact .refl _
  | succ j ih =>
    have hmem : 2 * (k + j + 1) + 1 ∈ D := hD ⟨by omega, by omega, by omega⟩
    have hpar := h.parent hmem (by omega)
    rw [parent_side (by omega)] at hpar
    exact .head hpar (ih fun x hx => hD ⟨hx.1, hx.2.1, by
      have := hx.2.2
      omega⟩)

theorem Sim.plainAt_anc (ht : IndexTree w.mapBlockIndex (hash 0)) (hu : u ∈ D)
    (hb : u / 2 < s.bad / 2) {x : Uint256}
    (hx : Anc (BlockMap.parent w.mapBlockIndex) (hash u) x) :
    PlainAt env (context a b) w x := by
  obtain ⟨e, he⟩ := isSome_iff_exists.1 (ht.mem_of_anc hx (h.mem u hu).2)
  obtain ⟨c, hc, rfl, -⟩ := h.entry x e he
  have hle := hx.height_le ht.graded
  rw [h.height hc, h.height hu] at hle
  exact h.plainAt (h.mem c hc).1 (by rintro rfl; omega) hc

/-- **The switch to the side branch is planned** once the peer that asks is a Demi-node, or
Demi-nodes are off, whatever its depth down to the rolling checkpoint. -/
theorem plan_side (hD : forkCodes s N (N + 1) ⊆ D)
    (hr : Ready env (hash 0) w (hash (2 * N))) (hf : s.fork < N) (hN : 5000 ≤ N)
    (hk : N ≤ s.fork + 121) (hab : a = true ∨ b = false) :
    ∃ plan w1, planReorganize (context a b) (hash (2 * (N + 1) + 1))
    { w with txdb := w.txdb.begin } = .ok plan w1 := by
  have hmain : mainCodes N ⊆ D := fun x hx => hD (.inl hx)
  have hside : sideCodes s.fork (N + 1) ⊆ D := fun x hx => hD (.inr hx)
  have htD : 2 * N ∈ D := hmain ⟨by omega, le_rfl⟩
  have huD : 2 * (N + 1) + 1 ∈ D := hside ⟨by omega, by omega, by omega⟩
  have hfD : 2 * s.fork ∈ D := hmain ⟨by omega, by omega⟩
  obtain ⟨best, new, hbest, hnew, hbh, hnh⟩ := h.merge htD huD
  have hcb := h.anc_main hmain (N - s.fork)
  rw [show N - (N - s.fork) = s.fork by omega] at hcb
  have hcp := h.anc_side (N - s.fork) (by rw [show s.fork + (N - s.fork) = N by omega]; exact hside)
  rw [show s.fork + (N - s.fork) = N by omega] at hcp
  have hmerge : checkMerge (context a b) w.fRollbacktoBlock (mergeShape best new) =
      .ok ((best.nHeight : ℤ) - 1) := by
    have hgt : new.nHeight > best.nHeight := by omega
    have hone : ((new.nHeight : ℤ) - best.nHeight) = 1 := by omega
    rcases hab with rfl | rfl <;>
    simp [checkMerge, mergeShape, hgt, hone, rejectIf, blockReorgMaxDepth, context]
  refine planReorganize_ok (w := { w with txdb := w.txdb.begin }) hr.tree hr.best hbest hnew
    hmerge (by omega) hcb hcp ?_
  rw [h.height hfD]
  omega

theorem Sim.plain_main (ht : IndexTree w.mapBlockIndex (hash 0))
    (hb : s.bad % 2 = 1) (hN : mainCodes N ⊆ D) {x : Uint256}
    (hx : Anc (BlockMap.parent w.mapBlockIndex) (hash (2 * N)) x) :
    PlainAt env (context a b) w x := by
  have hmem : 2 * N ∈ D := hN ⟨by omega, le_rfl⟩
  obtain ⟨e, he⟩ := isSome_iff_exists.1 (ht.mem_of_anc hx (h.mem _ hmem).2)
  obtain ⟨c, hc, rfl, -⟩ := h.entry x e he
  have hle := hx.height_le ht.graded
  rw [h.height hc, h.height hmem] at hle
  -- the ancestor at this height is the block of the main chain
  have hcD : 2 * (c / 2) ∈ D := hN ⟨by omega, by omega⟩
  have hanc := h.anc_main hN (N - c / 2)
  rw [show N - (N - c / 2) = c / 2 by omega] at hanc
  have heq := hx.eq_of_height ht.graded hanc (by rw [h.height hc, h.height hcD]; omega)
  have hc2 := (hash_inj (h.mem c hc).1 (h.mem _ hcD).1).1 heq
  exact h.plainAt (h.mem c hc).1 (by omega) hc

/-- **The switch to the side branch succeeds** if its blocks are plain. -/
theorem reorganize_side (hD : forkCodes s N (N + 1) ⊆ D)
    (hr : Ready env (hash 0) w (hash (2 * N))) (hf : s.fork < N) (hN : 5000 ≤ N)
    (hk : N ≤ s.fork + 121) (hb : N + 1 < s.bad / 2) (hab : a = true ∨ b = false) :
    ∃ w', reorganize env (context a b) (hash (2 * (N + 1) + 1)) { w with txdb := w.txdb.begin } =
      .ok () w' ∧ EmptyPool w' := by
  have htD : 2 * N ∈ D := hD (main_mem le_rfl)
  have huD : 2 * (N + 1) + 1 ∈ D := hD (side_mem (by omega) le_rfl)
  obtain ⟨plan, w1, hplan⟩ := plan_side h hD hr hf hN hk hab
  obtain ⟨c⟩ := planReorganize_spec hplan
  obtain hpb : c.pBest = hash (2 * N) := some.inj (c.pindexBest.symm.trans hr.best)
  refine reorganize_plain hr.toCoherent hr.best (noCollision h.blocks) hr.limits
    context_calm hr.pool hplan (fun x hx => ?_) fun x hx => ?_
  · have hanc := ((c.down.mem_iff hr.tree.graded).1 hx).1
    rw [hpb] at hanc
    exact h.plainAt_anc hr.tree htD (by omega) hanc
  · exact h.plainAt_anc hr.tree huD (by omega) ((c.mem_vConnect hr.tree).1 hx).1

end

/-! ### Paths of the network -/

section Paths

variable {p : Uint256} {l : List CBlock} {v : View}

/-- The last step of a path of the network. -/
theorem Sim.last (h : Sim s D n w) (ht : IndexTree w.mapBlockIndex (hash 0)) {q : Uint256}
    {block : CBlock} (hq : (w.mapBlockIndex.lookup q).isSome) (hu : u ∈ D)
    (hc : Connected env w.mapBlockIndex w.files (hash u) q e block v) :
    q = hash (s.parent u) ∧ s.parent u ∈ D ∧ s.parent u / 2 + 1 = u / 2 ∧ block = s.block u ∧
      e.nHeight = u / 2 := by
  obtain ⟨e', he', hheight, -, -, hprev⟩ := h.lookup hu
  obtain rfl := some.inj (hc.entry.symm.trans he')
  have hpar := hc.prev
  rw [hprev] at hpar
  split_ifs at hpar with h0
  obtain rfl := some.inj hpar
  obtain ⟨d, hd⟩ := isSome_iff_exists.1 hq
  obtain ⟨x, hx, hxp, -⟩ := h.entry _ d hd
  have hlt := (h.mem u hu).1
  have hple : s.parent u < codes := by
    unfold Shape.parent
    split_ifs <;> omega
  have hxu : x = s.parent u := ((hash_inj hple (h.mem x hx).1).1 hxp).symm
  rw [hxu] at hx
  have hgr := ht.graded (parent_eq_some.2 ⟨e, hc.entry, hc.prev⟩)
  rw [h.height hu, h.height hx] at hgr
  exact ⟨rfl, hx, hgr.symm, h.block_eq hlt hc.stored, hheight⟩

theorem subsidy_le {ctx : Ctx} {w1 : World} {subsidy : ℤ} (h0 : e.nHeight ≠ 0)
    (h : blockSubsidy env ctx w1 (s.block c) e = some subsidy) :
    subsidy ≤ if e.nHeight < 356 then 5000000000000000 else 500000000000 := by
  rw [blockSubsidy] at h
  obtain ⟨best, -, h⟩ := bind_eq_some_iff.1 h
  rw [if_neg (by simp [block_isProofOfStake]), some.injEq] at h
  subst h
  generalize best.nMoneySupply = supply
  have hzero : 0 < getProofOfWorkReward supply e.nHeight 0 ∧ _ := getProofOfWorkReward_zero
    (by rw [show nGenesisHeight = 0 from rfl]; omega)
  have hc : 5000 * coin = 500000000000 := by decide
  unfold proofOfWorkSubsidy
  split_ifs with h1 h2 h2
  · rw [hc]
    norm_num
  · rw [hc]
  · exact hzero.2
  · exact getProofOfWorkReward_late (by omega)

theorem total_step {nHeight : ℕ} {total total' subsidy : ℤ}
    (h : total ≤ (min nHeight 355 : ℕ) * 5000000000000000 + (nHeight : ℕ) * 500000000000)
    (hs : subsidy ≤ if nHeight + 1 < 356 then 5000000000000000 else 500000000000)
    (hle : total' ≤ total + subsidy) :
    total' ≤ (min (nHeight + 1) 355 : ℕ) * 5000000000000000 + (nHeight + 1 : ℕ) * 500000000000 := by
  split_ifs at hs <;> omega

/-- **The ledger of a path of plain blocks** is made of coinbases, and its value fits. -/
theorem Sim.path (h : Sim s D n w) (ht : IndexTree w.mapBlockIndex (hash 0))
    (hch : Chained env w.mapBlockIndex w.files (hash 0) p l v) (hp : p = hash u) (hu : u ∈ D)
    (hb : u / 2 < s.bad / 2) :
    (∀ tx ∈ ledger l, ∃ c < codes, c / 2 ≤ u / 2 ∧ tx = coinbase c) ∧
      totalUnspent w.files.diskTx v ≤
        (min (u / 2) 355 : ℕ) * 5000000000000000 + (u / 2 : ℕ) * 500000000000 := by
  induction hch generalizing u with
  | genesis => exact ⟨fun tx htx => absurd htx not_mem_nil, by rw [totalUnspent_empty]; omega⟩
  | @block p q e b l v hq hc ih =>
    subst hp
    obtain ⟨hqp, hpD, hph, rfl, hheight⟩ := h.last ht hq.lookup_isSome hu hc
    obtain ⟨htxs, htotal⟩ := ih hqp hpD (by omega)
    refine ⟨fun tx htx => ?_, ?_⟩
    · rw [ledger_cons, mem_append, mem_reverse] at htx
      rcases htx with htx | htx
      · rw [show (s.block u).vtx = s.vtx u from rfl, vtx,
          if_neg (by rintro rfl; omega)] at htx
        exact ⟨u, (h.mem u hu).1, le_rfl, mem_singleton.1 htx⟩
      · obtain ⟨c, hc, hle, htx⟩ := htxs tx htx
        exact ⟨c, hc, by omega, htx⟩
    · obtain ⟨ctx, w1, w2, subsidy, -, -, -, hsub, hle⟩ := hc.connected
      have hmax := subsidy_le (by omega) hsub
      rw [hheight, ← hph] at hmax
      rw [← hph]
      exact total_step htotal hmax hle

/-- A path of plain blocks leaves something to spend. -/
theorem Sim.total_pos (h : Sim s D n w) (ht : IndexTree w.mapBlockIndex (hash 0))
    (hch : Chained env w.mapBlockIndex w.files (hash 0) (hash u) l v) (hu : u ∈ D) (h0 : u ≠ 0)
    (hb : u ≠ s.bad) : 0 < totalUnspent w.files.diskTx v := by
  have hdisk := hch.onDisk
  generalize hp : hash u = p at hch
  cases hch with
  | genesis => exact absurd ((hash_inj (h.mem u hu).1 (by decide)).1 hp) h0
  | @block p q e b l v hq hc =>
    subst hp
    obtain ⟨-, -, -, rfl, -⟩ := h.last ht hq.lookup_isSome hu hc
    have hvtx : (s.block u).vtx = [coinbase u] := by simp [block, vtx, hb]
    have hloc := hc.stored.located
    have hrec : blockView env e (s.block u) v (hash u) =
        some (.ofOutputs (e.txPos (firstTxPos e.nBlockPos (s.block u))) 1) := by
      rw [blockView, hvtx]
      exact Function.update_self _ _ _
    have hval : recordValue w.files.diskTx (blockView env e (s.block u) v (hash u)) = reward u := by
      rw [hrec]
      simp only [recordValue, CTxIndex.ofOutputs, hloc.1]
      exact (unspentSum_replicate (coinbase u).vout).trans coinbase_valueOut
    have hle := hdisk.recordValue_le (hash u)
    rw [hval] at hle
    exact lt_of_lt_of_le (reward_range u).1 hle

end Paths

/-- The blocks of the main chain are connected on an index that does not know them. -/
theorem exists_connected (hb : s.bad % 2 = 1) (hn : 2 * (n + 1) < codes) :
    ∃ ctx w w', connectBlock env ctx (s.block (2 * (n + 1))) (hash (2 * (n + 1))) w = .ok () w' ∧
      ∀ tx ∈ (s.block (2 * (n + 1))).vtx, w.txdb.readTxIndex (env.txHash tx) = none := by
  obtain ⟨w, -, hr, hsim⟩ := exists_mainChain hb (n + 1) hn
  have hu : 2 * (n + 1) ∈ mainCodes (n + 1) := ⟨by omega, le_rfl⟩
  obtain ⟨l, hl⟩ := hr.reads
  have hnc := (noCollision hsim.blocks).subset hl.mem_files
  generalize hp : hash (2 * (n + 1)) = p at hl
  generalize w.txdb.view = v at hl
  cases hl with
  | genesis => exact absurd ((hash_inj hn (by decide)).1 hp) (by omega)
  | @block p q e b l v hq hc =>
    subst hp
    obtain ⟨-, -, -, rfl, -⟩ := hsim.last hr.tree hq.lookup_isSome hu hc
    have hfresh := hq.fresh hr.tree hc.sane hc.entry hc.prev hc.stored.height hc.spendable hnc
    obtain ⟨ctx, w1, w2, -, hrun, hv, -⟩ := hc.connected
    rw [← hv] at hfresh
    exact ⟨ctx, w1, w2, hrun.call, hfresh.absent⟩

/-! ### A block that is never connected -/

theorem Sim.unknown (h : Sim s D n w) (hi : Indexed env (hash 0) w)
    (hr : Reads env (hash 0) w (hash u)) (hu : u ∈ D) (hb : u / 2 < s.bad / 2) {k : Uint256}
    (hk : ∀ c < codes, c / 2 ≤ u / 2 → hash c ≠ k) : w.txdb.readTxIndex k = none := by
  obtain ⟨l, hl⟩ := hr
  have htr := hl.tracks hi.tree ((noCollision h.blocks).subset hl.mem_files)
  refine (htr.mem k).2 fun tx htx => ?_
  obtain ⟨c, hlt, hle, rfl⟩ := (h.path hi.tree hl rfl hu hb).1 tx htx
  exact hk c hlt hle

/-- **The block with `strayTx` is refused** on top of any path of plain blocks. -/
theorem Sim.connectBlock_bad {best : CBlockIndex} (h : Sim s D n w) (hi : Indexed env (hash 0) w)
    (hr : Reads env (hash 0) w (hash u)) (hu : u ∈ D) (hl : FirstLimits w)
    (hbest : (w.pindexBest.bind fun hash => w.mapBlockIndex.lookup hash) = some best)
    (hbD : s.bad ∈ D) (hb : u / 2 < s.bad / 2) :
    ∃ s', connectBlock env (context a b) (s.block s.bad) (hash s.bad) w = .error s' w ∧
      s'.returnsFalse = true := by
  have hlt := (h.mem _ hbD).1
  obtain ⟨e, he, -⟩ := h.lookup hbD
  have hpos := block_isProofOfStake (s := s) (c := s.bad)
  have hstray : ∀ c < codes, BitVec.ofNat 256 (2 ^ 255) ≠ hash c := fun c hc =>
    (stray_ne (c := c)).resolve_right (not_le.2 hc)
  have hvtx : (s.block s.bad).vtx = [coinbase s.bad, strayTx] := by simp [block, vtx]
  have hvin : strayTx.vin = [⟨⟨BitVec.ofNat 256 (2 ^ 255), 0⟩, [], uintMax⟩] := rfl
  refine connectBlock_missing hl hbest he ?_ hvtx ?_ ?_ ?_ hvin ?_ ?_
  · rw [CBlock.isProofOfWork, hpos]
    exact block_checks hlt _ _
  · simp [env]
  · refine h.unknown hi hr hu hb fun c hc hle heq => ?_
    rw [show env.txHash (coinbase s.bad) = hash s.bad from rfl, hash_inj hc hlt] at heq
    omega
  · refine h.unknown hi hr hu hb fun c hc hle heq => ?_
    have := congrArg BitVec.toNat heq
    unfold codes at hc
    simp only [hash, env, strayTx, BitVec.toNat_ofNat] at this
    omega
  · exact h.unknown hi hr hu hb fun c hc hle heq => hstray c hc heq.symm
  · exact hstray s.bad hlt

theorem block_proof (hc : c < codes) :
    (checkProofOfWork env ((s.block c).getHash env) (s.block c).nBits).isOk = true := by
  rw [getHash_block, show (s.block c).nBits = 0x207fffff from rfl, block_work hc]
  rfl

/-- **The switch fails after the main chain has been disconnected**, when the first block of the
side branch is the one with `strayTx`. -/
theorem reorganize_bad (h : Sim s D n w) (hD : forkCodes s N (N + 1) ⊆ D)
    (hr : Ready env (hash 0) w (hash (2 * N))) (hf : s.fork < N) (hN : 5000 ≤ N)
    (hk : N ≤ s.fork + 121) (hb : s.bad = 2 * (s.fork + 1) + 1) (hab : a = true ∨ b = false) :
    ∃ plan w1 w2 w3 s', planReorganize (context a b) (hash (2 * (N + 1) + 1))
        { w with txdb := w.txdb.begin } = .ok plan w1 ∧
      disconnectBranch env (context a b) plan.nReorgMax plan.vDisconnect [] w1 = .ok [] w2 ∧
      reorganize env (context a b) (hash (2 * (N + 1) + 1)) { w with txdb := w.txdb.begin } =
        .error s' w3 ∧ s'.returnsFalse = true := by
  have hmain : mainCodes N ⊆ D := fun x hx => hD (.inl hx)
  have hbD : s.bad ∈ D := by
    rw [hb]
    exact hD (side_mem (by omega) (by omega))
  obtain ⟨plan, w1, hplan⟩ := plan_side h hD hr hf hN hk hab
  obtain ⟨c⟩ := planReorganize_spec hplan
  obtain hpb : c.pBest = hash (2 * N) := some.inj (c.pindexBest.symm.trans hr.best)
  obtain ⟨w2, h2, hbt⟩ :=
    disconnectBranch_planned hr.toCoherent hr.best (noCollision h.blocks) hr.limits context_calm
    hplan fun x hx => by
      have hanc := ((c.down.mem_iff hr.tree.graded).1 hx).1
      rw [hpb] at hanc
      exact h.plain_main hr.tree (by omega) hmain hanc
  have h2' := h.of_sameBlocks hbt.same
  -- the fork is where the side branch leaves the main chain
  have hg := hr.tree.graded
  have hbanc : Anc (parent w.mapBlockIndex) (hash (2 * (N + 1) + 1))
    (hash s.bad) := by
    have := h.anc_side_side (k := s.fork + 1) (by omega) (N - s.fork)
      (fun x hx => hD (.inr ⟨hx.1, hx.2.1, by
      have := hx.2.2
      omega⟩))
    rwa [show s.fork + 1 + (N - s.fork) = N + 1 by omega, ← hb] at this
  have hbh : height w.mapBlockIndex (hash s.bad) = s.fork + 1 :=
    by rw [h.height hbD]; omega
  have hmeet : IsMeet (parent w.mapBlockIndex) plan.pfork (hash (2 * N))
      (hash (2 * (N + 1) + 1)) := hpb ▸ c.meet hr.tree
  have hup : Up (parent w.mapBlockIndex) plan.pfork plan.vConnect
      (hash (2 * (N + 1) + 1)) := c.up
  have hfD : 2 * s.fork ∈ D := hmain ⟨by omega, by omega⟩
  have hfpar : parent w.mapBlockIndex (hash s.bad) = some (hash (2 * s.fork)) := by
    have := h.parent hbD (by omega)
    rwa [hb, parent_side_first, ← hb] at this
  have hpf : plan.pfork = hash (2 * s.fork) := by
    have hmf := h.anc_main hmain (N - s.fork)
    rw [show N - (N - s.fork) = s.fork by omega] at hmf
    have hsf := hbanc.trans (.of_parent hfpar)
    have hge := (hmeet.last _ hmf hsf).height_le hg
    rw [h.height hfD] at hge
    refine hmeet.right.eq_of_height hg hsf ?_
    rw [h.height hfD]
    -- a higher fork would put the first block of the side branch on the main chain
    by_contra hne
    have hlow := hmeet.right.of_height_le hg hbanc (by omega)
    have hcD : 2 * (s.fork + 1) ∈ D := hmain ⟨by omega, by omega⟩
    have hmc := h.anc_main hmain (N - (s.fork + 1))
    rw [show N - (N - (s.fork + 1)) = s.fork + 1 by omega] at hmc
    have heq := (hmeet.left.trans hlow).eq_of_height hg hmc (by rw [hbh, h.height hcD]; omega)
    have := (hash_inj (h.mem _ hbD).1 (h.mem _ hcD).1).1 heq
    omega
  obtain ⟨x, ps, hvc⟩ : ∃ x ps, plan.vConnect = x :: ps := by
    refine exists_cons_of_ne_nil fun hn => ?_
    rw [hn] at hup
    have hend := congrArg (height w.mapBlockIndex) hup.eq_of_nil
    rw [hpf, h.height hfD, h.height (hD (side_mem (by omega) le_rfl))] at hend
    omega
  obtain rfl : x = hash s.bad := by
    rw [hvc, hpf] at hup
    have hxa := (hup.anc_of_mem mem_cons_self).1
    cases hup with
    | cons hx _ =>
      refine hxa.eq_of_height hg hbanc ?_
      have := hg hx
      rw [h.height hfD] at this
      omega
  -- at the fork the block with `strayTx` is read and refused
  obtain ⟨e, he⟩ := isSome_iff_exists.1 (h2'.mem _ hbD).2
  have hpar2 : e.pprev = some (hash (2 * s.fork)) := by
    rw [← parent_of_lookup he, hbt.same.tree.parent]
    exact hfpar
  obtain ⟨block, hst⟩ := hbt.stored _ e _ he hpar2
  obtain rfl := h2'.block_eq (h.mem _ hbD).1 hst
  have hread : readBlock env (context a b)
    (hash s.bad) "Reorganize() : ReadFromDisk for connect failed" w2 = .ok (s.block s.bad) w2 :=
    readBlock_stored hbt.toIndexed rfl he hst (block_proof (h.mem _ hbD).1)
  obtain ⟨best, hbest⟩ := hbt.best
  obtain ⟨s', hfail, hs'⟩ := h2'.connectBlock_bad (a := a)
    (b := b) hbt.toIndexed (hpf ▸ hbt.reads) hfD hbt.limits hbest hbD (by omega)
  refine ⟨plan, w1, w2, w2, Stop.report (.error "Reorganize() : ConnectBlock failed for block") s',
    hplan, h2, ?_, ?_⟩
  · rw [reorganize, bind_of_error]
    rw [switchBranch, bind_of_ok hplan, bind_of_ok h2, hvc, bind_of_error]
    rw [connectBranch, bind_of_error]
    rw [connectOne, bind_of_ok hread, bind_of_error (mapError_eq_error.2 ⟨s', hfail, rfl⟩)]
  · rw [Stop.report, if_pos hs']
    rfl

/-- `SetBestChain` swallows the failure of the block with `strayTx`, two blocks above the main
chain. -/
theorem Sim.swallows (h : Sim s D n w) (hD : forkCodes s N (N + 1) ⊆ D) (hbD : s.bad ∈ D)
    (hr : Ready env (hash 0) w (hash (2 * N))) (hf : s.fork < N) (hN : 5000 ≤ N)
    (hk : N ≤ s.fork + 121) (hb : s.bad = 2 * (N + 1 + 1) + 1)
    (hst : Stored env w.files (hash s.bad) (hash (s.parent s.bad)) e (s.block s.bad))
    (he : w.mapBlockIndex.lookup (hash s.bad) = some e) (hs0 : e.nMoneySupply = 0) :
    ∃ w', setBestChain env (context true true) (s.block s.bad) (hash s.bad) w = .ok () w' ∧
      Swallowed env (hash 0) (hash (2 * (N + 1) + 1)) (hash s.bad) w' ∧ SameBlocks w w' ∧
      ∃ e', w'.mapBlockIndex.lookup (hash s.bad) = some e' ∧ e'.nMoneySupply = 0 := by
  have htD : 2 * N ∈ D := hD (main_mem le_rfl)
  have huD : 2 * (N + 1) + 1 ∈ D := hD (side_mem (by omega) le_rfl)
  have hpD : s.parent (2 * (N + 1) + 1) ∈ D := by
    rw [parent_side hf]
    exact hD (side_mem hf (by omega))
  have hpar : s.parent s.bad = 2 * (N + 1) + 1 := by rw [hb, parent_side (by omega)]
  have htc := (h.mem _ htD).1
  have huc := (h.mem _ huD).1
  obtain ⟨y, hy, -, -, hyt, -⟩ := h.lookup htD
  obtain ⟨e', he', -, -, -, hprev⟩ := h.lookup hbD
  obtain rfl := some.inj (he.symm.trans he')
  rw [if_neg (by omega)] at hprev
  obtain ⟨d, hd, -, -, hdt, -⟩ := h.lookup huD
  -- the block below has more trust than the best chain, so this one is postponed
  have hpost : postpone w.mapBlockIndex y.nChainTrust
      (BlockMap.height w.mapBlockIndex (hash s.bad) + 1) (hash s.bad) [] =
        some (hash (2 * (N + 1) + 1), [hash s.bad]) := by
    rw [h.height hbD, hyt, postpone_step he hprev (hpar ▸ hd) (by
      rw [hdt, gt_iff_lt, trust_lt_iff htc huc]
      omega), hpar, show s.bad / 2 = N + 1 + 1 by omega]
    exact h.postpone_here huD hpD htc (by omega) (by omega) (N + 1) [hash s.bad]
  obtain ⟨w1, hreorg, -⟩ := reorganize_side (a := true) (b := true) h hD hr hf hN hk (by omega)
    (.inl rfl)
  obtain ⟨tr⟩ := reorganize_spec hreorg
  obtain ⟨hc1, hs1⟩ := tr.coherent hr.toCoherent hr.best (noCollision h.blocks)
  have h1 := h.of_sameBlocks hs1
  obtain ⟨ex, hex⟩ := isSome_iff_exists.1 (h1.mem _ hbD).2
  obtain ⟨e0, he0, hfix⟩ := hs1.tree.lookup hex
  obtain rfl := some.inj (he.symm.trans he0)
  have hst1 : Stored env w1.files (hash s.bad) (hash (s.parent s.bad)) ex (s.block s.bad) := by
    refine hst.mono hfix ?_
    rw [hs1.files]
    exact .refl _
  have hread := readBlockFromDisk_stored (show (context true true).blockReadFails _ =
    false from rfl) (hc1.tree.hash _ ex hex) hst1 (block_proof (h.mem _ hbD).1)
  obtain ⟨hi1, hrd1, -⟩ := hc1.begin
  obtain ⟨y1, hy1, -⟩ := h1.lookup htD
  have hl1 := tr.firstLimits ⟨hr.limits.size, hr.limits.sigops, hr.limits.height⟩
  have hb1 : Sim s D n { w1 with txdb := w1.txdb.begin } := h1.of_sameBlocks (.of_eq rfl rfl)
  obtain ⟨s', hfail, hs'⟩ := hb1.connectBlock_bad (a := true) (b := true) hi1 hrd1 huD
    ⟨hl1.size, hl1.sigops, hl1.height⟩
    (bind_eq_some_iff.2 ⟨hash (2 * N), tr.best.trans hr.best, hy1⟩) hbD (by omega)
  obtain ⟨w', hset, hsw, hsame, hmap⟩ :=
    setBestChain_swallows hr.toInv (noCollision h.blocks) hy he hprev hst
    (by rw [block_hashPrevBlock (by omega), hpar, ne_eq, hash_inj huc htc]; omega) hpost hreorg hex
    (by rw [CBlockIndex.fixed_pprev hfix, hprev]; rfl) hread hfail hs'
  refine ⟨w', hset, hsw, hsame, ex, by rw [hmap]; exact hex, ?_⟩
  -- the reorganisation ends below this block, so its entry is as it was
  have hnot : hash s.bad ∉ tr.plan.vConnect := by
    obtain ⟨c⟩ := planReorganize_spec tr.planned
    intro hmem
    have hle := ((c.mem_vConnect hr.tree).1 hmem).1.height_le hr.tree.graded
    have hhb := h.height hbD
    have hhu := h.height huD
    omega
  have hsup := tr.supply hnot
  rw [hex, map_some] at hsup
  have hsup' : some ex.nMoneySupply = some e.nMoneySupply := by
    rw [hsup]
    rw [he, map_some]
  rw [some.inj hsup', hs0]

/-- **A block that cannot be connected becomes the best block**: when a node holds a side branch
that it has refused, and a Demi-node relays one block more on top of it. -/
theorem exists_swallowed (hf : s.fork < N) (hN : 5000 ≤ N) (hk : N ≤ s.fork + 121)
    (hcodes : 4 * N + 10 < codes) (hb : s.bad = 2 * (N + 1 + 1) + 1) :
    ∃ w, AnyRun s w ∧ Swallowed env (hash 0) (hash (2 * (N + 1) + 1)) (hash s.bad) w ∧
      Sim s (insert s.bad (forkCodes s N (N + 1))) (2 * N + 3) w ∧
      ∃ e, w.mapBlockIndex.lookup (hash s.bad) = some e ∧ e.nMoneySupply = 0 := by
  obtain ⟨w, hrun, hr, hsim⟩ := exists_fork (s := s) (by omega) hf hcodes
  have hnew : s.bad ∉ forkCodes s N (N + 1) := by
    rw [hb]
    exact side_not_mem (by omega)
  have hpmem : s.parent s.bad ∈ forkCodes s N (N + 1) := by
    rw [hb]
    exact parent_side_mem hf.le (by omega)
  obtain ⟨d, ha, hheight, htrust⟩ := hsim.acceptable (a := true) (b := true) (by omega) (by omega)
    (by omega) hnew hpmem
  obtain ⟨y, hy, -, -, hyt, -⟩ := hsim.lookup (main_mem (s := s) (j := N + 1) (le_refl N))
  have hmore : d.nChainTrust + getBlockTrust (s.block s.bad).nBits > w.nBestChainTrust := by
    rw [htrust, trust_parent (by omega), hr.bestTrust y hy, hyt, gt_iff_lt,
      trust_lt_iff (by omega) (by omega)]
    omega
  obtain ⟨e, w1, hj, hr1, hok, -⟩ := acceptBlock_tries context_calm hr ha hmore
  have h1 := hsim.indexed (by omega) (by omega) (by omega) hnew hheight htrust hj
  obtain ⟨w2, h2, hsw, hs2, e', he', hs0⟩ := h1.swallows (fun x hx => mem_insert_of_mem _ hx)
    (mem_insert _ _) hr1 hf hN hk hb (by
      have := hj.stored
      rwa [block_hashPrevBlock (by omega)] at this) hj.entry hj.supply
  obtain ⟨w', hw', hroll⟩ := hok w2 h2 hsw.tree hs2
  have hs' : SameBlocks w2 w' := by
    rw [hroll.eq]
    exact .of_eq rfl rfl
  refine ⟨w', hrun.step (c := .acceptBlock (context true true) (s.block s.bad)) trivial trivial
    (.inl ⟨(), hw'⟩), hsw.of_rollingOnly hroll, (h1.of_sameBlocks hs2).of_sameBlocks hs', e', ?_,
    hs0⟩
  rw [hroll.eq]
  exact he'

end Espers.Simnet
