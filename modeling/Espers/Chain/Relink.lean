import Espers.Chain.Simfork

/-!
# The fork and the links of a reorganisation

`findFork` has the two loops of the source in one.  Here they are apart, as in the source: the inner
one (`lowerMerge`) steps the merging branch back to the height of the best one, the outer one
(`searchFork`) steps the best branch back.

* `searchFork_ok` : **the search ends at the last common ancestor**, on any tree and from any two
  entries; so both forms of it agree (`findFork_eq_searchFork`).
* `reorganize_relinks` : **the branches listed are those above the fork, and a reorganisation that
  succeeds leaves the links of the branch of the new tip.**
-/

namespace Forest

variable {α : Type*} {parent : α → Option α} {height : α → ℕ}

theorem IsMeet.unique (hg : Graded parent height) {f f' a b : α} (h : IsMeet parent f a b)
    (h' : IsMeet parent f' a b) : f = f' := by
  have hle := (h'.last f h.left h.right).height_le hg
  exact (h.last f' h'.left h'.right).eq_of_height_le hg hle

end Forest

namespace Espers

open Exec BlockMap

variable {E : Env} {ctx : Ctx} {m : BlockMap} {g a b p q f : Uint256} {w w' : World}

/-! ### The search as the source has it -/

/-- `while (pMerge->nHeight > pfork->nHeight)`. -/
def lowerMerge (m : BlockMap) (nHeight : ℕ) : ℕ → Uint256 → Except Stop Uint256
  | 0, _ => .error (.crash "Reorganize() : the search does not end")
  | fuel + 1, pMerge =>
    match m.lookup pMerge with
    | none => .error (.crash "null pointer")
    | some e =>
      if e.nHeight > nHeight then
        match e.pprev with
        | none => .error (.error "Reorganize() : plonger->pprev is null")
        | some q => lowerMerge m nHeight fuel q
      else .ok pMerge

/-- `while (pfork != pMerge)`. -/
def searchFork (m : BlockMap) : ℕ → Uint256 → Uint256 → Except Stop Uint256
  | 0, _, _ => .error (.crash "Reorganize() : the search does not end")
  | fuel + 1, pfork, pMerge =>
    if pfork = pMerge then .ok pfork
    else
      match m.lookup pfork with
      | none => .error (.crash "null pointer")
      | some e => do
        let pMerge ← lowerMerge m e.nHeight (height m pMerge + 1) pMerge
        if pfork = pMerge then .ok pfork
        else
          match e.pprev with
          | none => .error (.error "Reorganize() : pfork->pprev is null")
          | some q => searchFork m fuel q pMerge

/-- The inner loop ends not higher than it should, and keeps the last common ancestor. -/
theorem lowerMerge_ok (ht : IndexTree m g) (fuel : ℕ) (hb : (m.lookup b).isSome)
    (hf : height m b < fuel) :
    ∃ c, lowerMerge m (height m a) fuel b = .ok c ∧ (m.lookup c).isSome ∧
      height m c ≤ height m a ∧
      ∀ f, Forest.IsMeet (parent m) f a c → Forest.IsMeet (parent m) f a b := by
  induction fuel generalizing b with
  | zero => omega
  | succ fuel ih =>
    obtain ⟨e, he⟩ := Option.isSome_iff_exists.1 hb
    have hh := height_of_lookup he
    rw [lowerMerge, he]
    simp only
    by_cases hgt : e.nHeight > height m a
    · obtain ⟨q, hq, hqs⟩ := ht.exists_parent hb (by omega)
      have hqh := ht.graded hq
      obtain ⟨c, hc, hcs, hle, hmeet⟩ := ih hqs (by omega)
      rw [if_pos hgt, ← parent_of_lookup he, hq]
      exact ⟨c, hc, hcs, hle, fun f hf => (hmeet f hf).of_step_right ht.graded hq (by omega)⟩
    · rw [if_neg hgt]
      exact ⟨b, rfl, hb, by omega, fun f hf => hf⟩

/-- **The search for the fork ends at the last common ancestor.** -/
theorem searchFork_ok (ht : IndexTree m g) (fuel : ℕ) (ha : (m.lookup a).isSome)
    (hb : (m.lookup b).isSome) (hf : height m a < fuel) :
    ∃ f, searchFork m fuel a b = .ok f ∧ Forest.IsMeet (parent m) f a b := by
  induction fuel generalizing a b with
  | zero => omega
  | succ fuel ih =>
    rw [searchFork]
    by_cases hab : a = b
    · subst hab
      exact ⟨a, if_pos rfl, .refl a⟩
    obtain ⟨e, he⟩ := Option.isSome_iff_exists.1 ha
    have hh := height_of_lookup he
    obtain ⟨c, hc, hcs, hle, hmeet⟩ :=
      lowerMerge_ok (a := a) ht (height m b + 1) hb (by omega)
    rw [if_neg hab, he]
    simp only
    rw [← hh, hc, except_ok_bind]
    by_cases hac : a = c
    · subst hac
      exact ⟨a, if_pos rfl, hmeet a (.refl a)⟩
    -- neither is below the other, so the best branch is not at its root
    have hpos : 0 < height m a := by
      by_contra h0
      exact hac ((ht.eq_root ha (by omega)).trans (ht.eq_root hcs (by omega)).symm)
    obtain ⟨q, hq, hqs⟩ := ht.exists_parent ha hpos
    have hqh := ht.graded hq
    obtain ⟨f, hsearch, hqc⟩ := ih hqs hcs (by omega)
    refine ⟨f, ?_, hmeet f (hqc.of_step_left ht.graded hq hle hac)⟩
    rw [if_neg hac, ← parent_of_lookup he, hq]
    exact hsearch

theorem findFork_eq_searchFork (ht : IndexTree m g) {fuel fuel' : ℕ} (ha : (m.lookup a).isSome)
    (hb : (m.lookup b).isSome) (hf : height m a + height m b < fuel)
    (hf' : height m a < fuel') : findFork m fuel a b = searchFork m fuel' a b := by
  obtain ⟨f, hfind⟩ := findFork_ok ht fuel ha hb hf
  obtain ⟨f', hsearch, hmeet⟩ := searchFork_ok ht fuel' ha hb hf'
  rw [hfind, hsearch, (findFork_spec ht hfind).unique ht.graded hmeet]

open Simnet

theorem findFork_eq_searchFork_simnet : ∃ m : BlockMap, findFork m 15000 (hash 10000) (hash 10001) =
      searchFork m 15000 (hash 10000) (hash 10001) := by
  obtain ⟨w, -, hr, hsim⟩ := exists_fork (s := ⟨4999, 100001⟩) (N := 5000) rfl (by decide)
    (by decide)
  have ha : 2 * 5000 ∈ forkCodes ⟨4999, 100001⟩ 5000 (5000 + 1) :=
    main_mem (by decide)
  have hb : 2 * 5000 + 1 ∈ forkCodes ⟨4999, 100001⟩ 5000 (5000 + 1) :=
    side_mem (by decide) (by decide)
  exact ⟨w.mapBlockIndex, findFork_eq_searchFork hr.tree (hsim.mem _ ha).2 (hsim.mem _ hb).2
    (by rw [hsim.height ha, hsim.height hb]; decide) (by rw [hsim.height ha]; decide)⟩

/-! ### The links -/

theorem Links.next_tip (ht : IndexTree m g) (h : Links m p) : next m p = none := by
  cases hn : next m p with
  | none => rfl
  | some q =>
    obtain ⟨hq, hanc⟩ := (h p q).1 hn
    have := hanc.height_le ht.graded
    have := ht.graded hq
    omega

/-- The blocks to disconnect and to connect are those above the last common ancestor, from the old
tip down and up to the new one. -/
structure Branches (m : BlockMap) (b p : Uint256) (plan : ReorgPlan) : Prop where
  fork : Forest.IsMeet (parent m) plan.pfork b p
  disconnect : Forest.Down (parent m) b plan.vDisconnect plan.pfork
  connect : Forest.Up (parent m) plan.pfork plan.vConnect p

theorem PlanTrace.branches {plan : ReorgPlan} (c : PlanTrace ctx p w w' plan)
    (ht : IndexTree w.mapBlockIndex g) : Branches w.mapBlockIndex c.pBest p plan :=
  ⟨c.meet ht, c.down, c.up⟩

theorem exists_branches (ht : IndexTree m g) (hb : (m.lookup b).isSome) (hp : (m.lookup p).isSome) :
    ∃ plan : ReorgPlan, searchFork m (height m b + 1) b p = .ok plan.pfork ∧
      listBranch m plan.pfork (height m b + 1) b = some plan.vDisconnect ∧
      listBranch m plan.pfork (height m p + 1) p = some plan.vConnect.reverse ∧
      Branches m b p plan := by
  obtain ⟨f, hsearch, hmeet⟩ :=
    searchFork_ok ht (height m b + 1) hb hp (Nat.lt_succ_self _)
  obtain ⟨l, hl⟩ := listBranch_ok ht (height m b + 1) hmeet.left (Nat.lt_succ_self _)
  obtain ⟨l', hl'⟩ := listBranch_ok ht (height m p + 1) hmeet.right (Nat.lt_succ_self _)
  exact ⟨⟨f, l, l'.reverse, 0⟩, hsearch, hl, by rw [hl', List.reverse_reverse], hmeet,
    listBranch_spec hl, (listBranch_spec hl').reverse⟩

/-- The links after a reorganisation. -/
theorem ReorgTrace.links (t : ReorgTrace E ctx p w w') (ht : IndexTree w.mapBlockIndex g)
    (hb : w.pindexBest = some b) (hl : Links w.mapBlockIndex b) :
    IndexTree w'.mapBlockIndex g ∧ Links w'.mapBlockIndex p := by
  obtain ⟨c⟩ := planReorganize_spec t.planned
  obtain rfl : c.pBest = b := Option.some.inj (c.pindexBest.symm.trans hb)
  have htree := t.frame.sameTree
  have ht3 := htree.indexTree ht
  have hbr := c.branches ht
  have hl3 : Links t.w3.mapBlockIndex c.pBest := hl.frame t.frame
  -- the branches are the same on the index that is relinked
  have hdown : Forest.Down (parent t.w3.mapBlockIndex) c.pBest t.plan.vDisconnect
      t.plan.pfork := by
    rw [htree.parent]
    exact hbr.disconnect
  have hdownNew : Forest.Down (parent t.w3.mapBlockIndex) p t.plan.vConnect.reverse
      t.plan.pfork := by
    rw [htree.parent]
    exact c.downNew
  have hlinks := links_relink (w := { t.w3 with
      txdb := Store.Db.commit (t.w3.txdb.writeHashBestChain t.new.hashBlock) })
    ht3 hl3 (by rw [htree.parent]; exact hbr.fork) hdown hdownNew
  rw [congrArg World.mapBlockIndex t.rest.eq]
  exact ⟨(relink_linksOnly _ _ _).sameTree.indexTree ht3, hlinks⟩

/-- **The walks and the links of a reorganisation.**  From the best block and any other entry of a
tree, the search for the fork ends at their last common ancestor, and the lists are the branches
above it; every plan is made of these.  If the links were those of the branch of the best block, a
reorganisation that succeeds leaves those of the branch of the new tip. -/
theorem reorganize_relinks (ht : IndexTree w.mapBlockIndex g) (hb : w.pindexBest = some b)
    (hbm : (w.mapBlockIndex.lookup b).isSome) (hpm : (w.mapBlockIndex.lookup p).isSome)
    (hl : Links w.mapBlockIndex b) :
    (∃ plan : ReorgPlan,
      searchFork w.mapBlockIndex (height w.mapBlockIndex b + 1) b p = .ok plan.pfork ∧
      listBranch w.mapBlockIndex plan.pfork (height w.mapBlockIndex b + 1) b =
        some plan.vDisconnect ∧
      listBranch w.mapBlockIndex plan.pfork (height w.mapBlockIndex p + 1) p =
        some plan.vConnect.reverse ∧
      Branches w.mapBlockIndex b p plan) ∧
    (∀ ctx plan w1, planReorganize ctx p w = .ok plan w1 → Branches w.mapBlockIndex b p plan) ∧
    ∀ E ctx w', reorganize E ctx p w = .ok () w' →
      parent w'.mapBlockIndex = parent w.mapBlockIndex ∧
      Links w'.mapBlockIndex p ∧ next w'.mapBlockIndex p = none := by
  refine ⟨exists_branches ht hbm hpm, fun ctx plan w1 hplan => ?_, fun E ctx w' h => ?_⟩
  · obtain ⟨c⟩ := planReorganize_spec hplan
    obtain rfl : c.pBest = b := Option.some.inj (c.pindexBest.symm.trans hb)
    exact c.branches ht
  · obtain ⟨t⟩ := reorganize_spec h
    obtain ⟨ht', hl'⟩ := t.links ht hb hl
    refine ⟨?_, hl', hl'.next_tip ht'⟩
    rw [congrArg World.mapBlockIndex t.rest.eq, (relink_linksOnly _ _ _).sameTree.parent]
    exact t.frame.sameTree.parent

/-- A node with a main chain of 5000 blocks switches to a side branch that leaves it at 4999. -/
theorem reorganize_relinks_simnet : ∃ w p w', w.pindexBest = some (Simnet.hash 10000) ∧
    reorganize env (context true true) p w = .ok () w' ∧
    Links w'.mapBlockIndex p ∧ next w'.mapBlockIndex p = none := by
  obtain ⟨w, -, hr, hsim⟩ := exists_fork (s := ⟨4999, 100001⟩) (N := 5000) rfl (by decide)
    (by decide)
  obtain ⟨w', hw', -⟩ := reorganize_side (a := true) (b := true) hsim (fun _ h => h) hr
    (by decide) (by decide) (by decide) (by decide) (.inl rfl)
  have hmem : 2 * (5000 + 1) + 1 ∈ forkCodes ⟨4999, 100001⟩ 5000 (5000 + 1) :=
    side_mem (by decide) (by decide)
  have hbest : 2 * 5000 ∈ forkCodes ⟨4999, 100001⟩ 5000 (5000 + 1) :=
    main_mem (by decide)
  obtain ⟨-, -, hlinks⟩ := reorganize_relinks (w := { w with txdb := w.txdb.begin }) hr.tree hr.best
    (hsim.mem _ hbest).2 (hsim.mem _ hmem).2 hr.links
  exact ⟨{ w with txdb := w.txdb.begin }, _, w', hr.best, hw', (hlinks _ _ _ hw').2⟩

end Espers
