import Espers.Chain.Path

/-!
# The links of the main chain

`IsInMainChain` of the source looks at `pnext`, and `FindBlockByHeight` follows it.  Both are right
while the links are those of the main chain (`Links`): `pnext` of an entry is its child on the
branch of the best block, and null when there is none.

* `links_relink` : **switching the links from one branch to another** keeps them in order.
* `findByHeight_ok` : **`FindBlockByHeight` finds the ancestor of the best block** at any height up
  to that of the best block.
-/

namespace Espers

open Exec List BlockMap Function Forest
open Option hiding map

variable {m m' : BlockMap} {g p q x tip : Uint256} {w w' : World}

/-! ### Indexes with the same tree -/

/-- The entries are the same, except for fields that change after an entry is made. -/
def SameTree (m m' : BlockMap) : Prop :=
  ∀ p, (m'.lookup p).map CBlockIndex.fixed = (m.lookup p).map CBlockIndex.fixed

namespace SameTree

theorem refl (m : BlockMap) : SameTree m m := fun _ => rfl

theorem trans {m1 m2 m3 : BlockMap} (h1 : SameTree m1 m2) (h2 : SameTree m2 m3) : SameTree m1 m3 :=
  fun p => (h2 p).trans (h1 p)

variable (h : SameTree m m')
include h

theorem symm : SameTree m' m := fun p => (h p).symm

theorem lookup {e' : CBlockIndex} (he : m'.lookup p = some e') :
    ∃ e, m.lookup p = some e ∧ e'.fixed = e.fixed := by
  have hp := h p
  rw [he, map_some] at hp
  obtain ⟨e, hm, hs⟩ := map_eq_some_iff.1 hp.symm
  exact ⟨e, hm, hs.symm⟩

theorem grows : m.Grows m' := fun x e he => by
  obtain ⟨e', he', hfix⟩ := h.symm.lookup he
  exact ⟨e', he', hfix.symm⟩

theorem parent : parent m' = parent m := by
  funext p
  have hp := congrArg (fun o => o.bind CBlockIndex.pprev) (h p)
  simpa [BlockMap.parent, bind_map, comp_def, CBlockIndex.fixed] using hp

theorem height : height m' = height m := by
  funext p
  have hp := congrArg (fun o => (o.map CBlockIndex.nHeight).getD 0) (h p)
  simpa [BlockMap.height, comp_def, CBlockIndex.fixed] using hp

theorem isSome (p : Uint256) : (m'.lookup p).isSome = (m.lookup p).isSome := by
  simpa using congrArg Option.isSome (h p)

theorem indexTree (ht : IndexTree m g) : IndexTree m' g := by
  refine ⟨fun p e' he => ?_, fun p e' q he hq => ?_, fun p e' he hn => ?_⟩
  · obtain ⟨e, hm, hs⟩ := h.lookup he
    rw [CBlockIndex.fixed_hashBlock hs]
    exact ht.hash p e hm
  · obtain ⟨e, hm, hs⟩ := h.lookup he
    obtain ⟨d, hd, hh⟩ := ht.prev p e q hm ((CBlockIndex.fixed_pprev hs).symm.trans hq)
    obtain ⟨d', hd', hs'⟩ := h.symm.lookup hd
    refine ⟨d', hd', ?_⟩
    rw [CBlockIndex.fixed_nHeight hs, hh, CBlockIndex.fixed_nHeight hs']
  · obtain ⟨e, hm, hs⟩ := h.lookup he
    obtain ⟨hr, hh⟩ := ht.root_eq p e hm ((CBlockIndex.fixed_pprev hs).symm.trans hn)
    exact ⟨hr, by rw [CBlockIndex.fixed_nHeight hs, hh]⟩

end SameTree

theorem Frame.sameTree {D : CTxDB → CTxDB → Prop} {M : Set Uint256} (h : Frame D M w w') :
    SameTree w.mapBlockIndex w'.mapBlockIndex := by
  intro p
  have hp := congrArg (Option.map CBlockIndex.fixed) (h.skeleton p)
  rw [Option.map_map, Option.map_map] at hp
  exact hp

/-! ### Setting links -/

/-- `pnext`, as a partial function on hashes. -/
def BlockMap.next (m : BlockMap) (p : Uint256) : Option Uint256 :=
    (m.lookup p).bind CBlockIndex.pnext

/-- The entry without its link. -/
def CBlockIndex.unlinked (e : CBlockIndex) : CBlockIndex := { e with pnext := none }

/-- Only links of the index have changed. -/
structure LinksOnly (w w' : World) : Prop where
  eq : w' = { w with mapBlockIndex := w'.mapBlockIndex }
  entries : ∀ p, (w'.mapBlockIndex.lookup p).map CBlockIndex.unlinked =
    (w.mapBlockIndex.lookup p).map CBlockIndex.unlinked

instance : IsPreorder World LinksOnly where
  refl _ := ⟨rfl, fun _ => rfl⟩
  trans a b c h1 h2 := ⟨by rw [h2.eq, h1.eq], fun p => (h2.entries p).trans (h1.entries p)⟩

theorem LinksOnly.sameTree (h : LinksOnly w w') : SameTree w.mapBlockIndex w'.mapBlockIndex := by
  intro p
  have hp := congrArg (Option.map CBlockIndex.fixed) (h.entries p)
  rw [Option.map_map, Option.map_map] at hp
  exact hp

theorem LinksOnly.supply (h : LinksOnly w w') (p : Uint256) :
    (w'.mapBlockIndex.lookup p).map CBlockIndex.nMoneySupply =
      (w.mapBlockIndex.lookup p).map CBlockIndex.nMoneySupply := by
  have hp := congrArg (Option.map CBlockIndex.nMoneySupply) (h.entries p)
  simpa [comp_def, CBlockIndex.unlinked] using hp

theorem setPrevNext_lookup (w : World) (p : Uint256) (r : Option Uint256) (x : Uint256) :
    (w.setPrevNext p r).mapBlockIndex.lookup x = (w.mapBlockIndex.lookup x).map fun d =>
      if parent w.mapBlockIndex p = some x then { d with pnext := r } else d := by
  unfold World.setPrevNext
  cases hq : parent w.mapBlockIndex p with
  | none => simp
  | some q =>
    unfold World.updateIndex
    simp only [some.injEq]
    cases hd : w.mapBlockIndex.lookup q with
    | none =>
      by_cases hx : q = x
      · subst hx; simp [hd]
      · simp [hx]
    | some d =>
      by_cases hx : q = x
      · subst hx; simp [hd]
      · simp [hx, AList.lookup_insert_ne (Ne.symm hx)]

theorem setPrevNext_linksOnly (w : World) (p : Uint256) (r : Option Uint256) :
    LinksOnly w (w.setPrevNext p r) := by
  refine ⟨?_, fun x => ?_⟩
  · unfold World.setPrevNext World.updateIndex
    split
    · rfl
    · split <;> rfl
  · rw [setPrevNext_lookup, Option.map_map]
    split_ifs <;> rfl

theorem next_setPrevNext (ht : IndexTree w.mapBlockIndex g) (p : Uint256) (r : Option Uint256)
    (x : Uint256) : next (w.setPrevNext p r).mapBlockIndex x =
      if parent w.mapBlockIndex p = some x then r else
        next w.mapBlockIndex x := by
  rw [BlockMap.next, setPrevNext_lookup]
  split_ifs with hx
  · obtain ⟨e, he, hq⟩ := parent_eq_some.1 hx
    obtain ⟨d, hd, -⟩ := ht.prev p e x he hq
    simp [hd]
  · simp [BlockMap.next]

theorem setLinks_linksOnly (r : Uint256 → Option Uint256) (ps : List Uint256) (w : World) :
    LinksOnly w (ps.foldl (fun w p => w.setPrevNext p (r p)) w) := by
  induction ps generalizing w with
  | nil => exact Std.Refl.refl w
  | cons p ps ih => exact IsTrans.trans _ _ _ (setPrevNext_linksOnly w p (r p)) (ih _)

theorem next_setLinks (ht : IndexTree w.mapBlockIndex g) (r : Uint256 → Option Uint256)
    (ps : List Uint256) (x : Uint256) :
    next (ps.foldl (fun w p => w.setPrevNext p (r p)) w).mapBlockIndex x =
      ps.foldl (fun n p => if parent w.mapBlockIndex p = some x then r p else n)
        (next w.mapBlockIndex x) := by
  induction ps generalizing w with
  | nil => rfl
  | cons p ps ih =>
    have hl := (setPrevNext_linksOnly w p (r p)).sameTree
    rw [foldl_cons, foldl_cons, ih (hl.indexTree ht), hl.parent, next_setPrevNext ht]

theorem relink_linksOnly (w : World) (vDisconnect vConnect : List Uint256) :
    LinksOnly w (w.relink vDisconnect vConnect) :=
  IsTrans.trans _ _ _ (setLinks_linksOnly (fun _ => none) vDisconnect w)
    (setLinks_linksOnly some vConnect _)

theorem next_relink (ht : IndexTree w.mapBlockIndex g) (vDisconnect vConnect : List Uint256)
    (x : Uint256) : next (w.relink vDisconnect vConnect).mapBlockIndex x =
      vConnect.foldl (fun n p => if parent w.mapBlockIndex p = some x then some p else n)
        (vDisconnect.foldl (fun n p => if parent w.mapBlockIndex p =
        some x then none else n)
          (next w.mapBlockIndex x)) := by
  have hl := (setLinks_linksOnly (fun _ => none) vDisconnect w).sameTree
  unfold World.relink
  rw [next_setLinks (hl.indexTree ht) some, hl.parent, next_setLinks ht fun _ => none]

/-! ### The links of a branch -/

/-- The link of an entry is its child on the branch of `tip`. -/
def Links (m : BlockMap) (tip : Uint256) : Prop :=
  ∀ p q, next m p = some q ↔ parent m q = some p ∧ Anc (parent m) tip q

/-- `CBlockIndex::IsInMainChain`. -/
def World.isInMainChain (w : World) (p : Uint256) : Bool :=
  (next w.mapBlockIndex p).isSome || w.pindexBest == some p

variable {c : Uint256 → Prop}

theorem foldl_none [DecidablePred c] (ps : List Uint256) (n : Option Uint256) :
    ps.foldl (fun n p => if c p then none else n) n = if ∃ p ∈ ps, c p then none else n := by
  induction ps generalizing n with
  | nil => simp
  | cons p ps ih =>
    rw [foldl_cons, ih]
    by_cases hp : c p <;> simp [hp]

theorem foldl_some_of_unique [DecidablePred c] {ps : List Uint256}
    (hu : ∀ a ∈ ps, c a → a = q) (hq : q ∈ ps) (hc : c q) (n : Option Uint256) :
    ps.foldl (fun n p => if c p then some p else n) n = some q := by
  induction ps generalizing n with
  | nil => cases hq
  | cons p ps ih =>
    rw [foldl_cons]
    by_cases hin : q ∈ ps
    · exact ih (fun a ha => hu a (mem_cons_of_mem _ ha)) hin _
    · obtain rfl : q = p := (mem_cons.1 hq).resolve_right hin
      rw [if_pos hc]
      have hnone : ∀ a ∈ ps, ¬ c a := fun a ha hca =>
        hin (hu a (mem_cons_of_mem _ ha) hca ▸ ha)
      clear ih hu hq
      induction ps with
      | nil => rfl
      | cons a ps ih =>
        rw [foldl_cons, if_neg (hnone a mem_cons_self)]
        exact ih (fun h => hin (mem_cons_of_mem _ h)) fun b hb => hnone b (mem_cons_of_mem _ hb)

theorem foldl_some_of_none [DecidablePred c] {ps : List Uint256}
    (h : ∀ a ∈ ps, ¬ c a) (n : Option Uint256) :
    ps.foldl (fun n p => if c p then some p else n) n = n := by
  induction ps generalizing n with
  | nil => rfl
  | cons p ps ih =>
    rw [foldl_cons, if_neg (h p mem_cons_self)]
    exact ih (fun a ha => h a (mem_cons_of_mem _ ha)) n

/-- **Switching the links.**  Links of the branch of `b` become those of the branch of `n` when the
links above the fork are cut on the one side and made on the other. -/
theorem links_relink {f b n : Uint256} {vDisconnect vConnect : List Uint256}
    (ht : IndexTree w.mapBlockIndex g) (hl : Links w.mapBlockIndex b)
    (hm : IsMeet (parent w.mapBlockIndex) f b n)
    (hd : Down (parent w.mapBlockIndex) b vDisconnect f)
    (hc : Down (parent w.mapBlockIndex) n vConnect.reverse f) :
    Links (w.relink vDisconnect vConnect).mapBlockIndex n := by
  have hg := ht.graded
  have hdm : ∀ x, x ∈ vDisconnect ↔ _ := fun x => hd.mem_iff hg
  have hcm : ∀ x, x ∈ vConnect ↔ Anc (parent w.mapBlockIndex) n x ∧
      height w.mapBlockIndex f < height w.mapBlockIndex x := fun x => by
    rw [← mem_reverse, hc.mem_iff hg]
  intro p q
  rw [(relink_linksOnly w vDisconnect vConnect).sameTree.parent, next_relink ht, foldl_none]
  by_cases hch : ∃ y ∈ vConnect, parent w.mapBlockIndex y = some p
  · -- the parent of a connected block: its link is that block
    obtain ⟨y, hy, hyp⟩ := hch
    have hyn := ((hcm y).1 hy).1
    have hu : ∀ a, Anc (parent w.mapBlockIndex) n a →
        parent w.mapBlockIndex a = some p → a = y := fun a ha hap =>
      ha.eq_of_height hg hyn ((hg hap).trans (hg hyp).symm)
    rw [foldl_some_of_unique (fun a ha hap => hu a ((hcm a).1 ha).1 hap) hy hyp, some.injEq]
    constructor
    · rintro rfl
      exact ⟨hyp, hyn⟩
    · rintro ⟨hqp, hqn⟩
      exact (hu q hqn hqp).symm
  · rw [foldl_some_of_none fun a ha hap => hch ⟨a, ha, hap⟩]
    have hlow : ∀ x, Anc (parent w.mapBlockIndex) n x → parent w.mapBlockIndex x = some p →
        Anc (parent w.mapBlockIndex) f x := by
      intro x hx hxp
      refine hm.right.of_height_le hg hx ?_
      by_contra hlt
      exact hch ⟨x, (hcm x).2 ⟨hx, by omega⟩, hxp⟩
    split_ifs with hdis
    · -- the parent of a disconnected block: it is not below the new tip, or it is the new tip
      obtain ⟨y, hy, hyp⟩ := hdis
      have hyb := (hdm y).1 hy
      simp only [false_iff, not_and]
      intro hqp hqn
      have := (hlow q hqn hqp).height_le hg
      have := hg hqp
      have := hg hyp
      omega
    · rw [hl p q]
      refine and_congr_right fun hqp => ⟨fun hqb => ?_, fun hqn => hm.left.trans (hlow q hqn hqp)⟩
      refine hm.right.trans (hm.left.of_height_le hg hqb ?_)
      by_contra hlt
      exact hdis ⟨q, (hdm q).2 ⟨hqb, by omega⟩, hqp⟩

/-! ### Finding blocks by height -/

theorem walkPrev_ok (ht : IndexTree m g) (hm : (m.lookup p).isSome) {nHeight : ℤ} (h0 : 0 ≤ nHeight)
    (fuel : ℕ) (hf : (height m p : ℤ) - nHeight < fuel) (hpos : 0 < fuel) :
    ∃ q, walkPrev m nHeight fuel p = some q ∧ Anc (parent m) p q ∧
      (height m q : ℤ) = min (height m p : ℤ) nHeight := by
  induction fuel generalizing p with
  | zero => omega
  | succ fuel ih =>
    obtain ⟨e, he⟩ := isSome_iff_exists.1 hm
    have hh := height_of_lookup he
    rw [walkPrev, he]
    simp only
    split_ifs with hgt
    · obtain ⟨q, hq, hqm⟩ := ht.exists_parent hm (by omega)
      have hhq := ht.graded hq
      obtain ⟨r, hr, hanc, hrh⟩ := ih hqm (by omega) (by omega)
      refine ⟨r, ?_, .head hq hanc, by omega⟩
      rw [parent_of_lookup he] at hq
      rw [hq, bind_some, hr]
    · exact ⟨p, rfl, .refl p, by omega⟩

theorem walkNext_ok (ht : IndexTree m g) (hl : Links m tip)
    (hanc : Anc (parent m) tip p) (htip : (m.lookup tip).isSome) {nHeight : ℤ}
    (hlo : (height m p : ℤ) ≤ nHeight) (hhi : nHeight ≤ height m tip)
    (fuel : ℕ) (hf : nHeight - height m p < fuel) :
    ∃ q, walkNext m nHeight fuel p = some q ∧ Anc (parent m) tip q ∧
      (height m q : ℤ) = nHeight := by
  induction fuel generalizing p with
  | zero => omega
  | succ fuel ih =>
    obtain ⟨e, he⟩ := isSome_iff_exists.1 (ht.mem_of_anc hanc htip)
    have hh := height_of_lookup he
    rw [walkNext, he]
    simp only
    split_ifs with hlt
    · have hne : tip ≠ p := by rintro rfl; omega
      obtain ⟨c, hc, hcp⟩ := hanc.exists_child hne
      have hhc := ht.graded hcp
      obtain ⟨r, hr, hranc, hrh⟩ := ih hc (by omega) (by omega)
      have hnext := (hl p c).2 ⟨hcp, hc⟩
      rw [BlockMap.next, he, bind_some] at hnext
      exact ⟨r, by rw [hnext, bind_some, hr], hranc, hrh⟩
    · exact ⟨p, rfl, hanc, by omega⟩

section

variable (ht : IndexTree w.mapBlockIndex g) (hl : Links w.mapBlockIndex tip)
  (hb : w.pindexBest = some tip) (htip : (w.mapBlockIndex.lookup tip).isSome)
  (hgen : w.pindexGenesisBlock = some g)
include ht hl hb htip hgen

theorem linkClosed_of_links :
    LinkClosed w {x | Anc (parent w.mapBlockIndex) tip x} := by
  refine ⟨fun p hp => ?_, fun p hp => ?_, fun p e q hp he hq => ?_, fun p e q hp he hq => ?_⟩
  · obtain rfl := some.inj (hgen.symm.trans hp)
    exact ht.anc_root htip
  · obtain rfl := some.inj (hb.symm.trans hp)
    exact .refl _
  · exact Anc.trans hp (Anc.of_parent (parent_eq_some.2 ⟨e, he, hq⟩))
  · exact ((hl p q).1 (by rw [BlockMap.next, he]; exact hq)).2

/-- **`FindBlockByHeight` finds the ancestor of the best block.** -/
theorem findByHeight_ok
    (hcache : ∀ p, w.pblockindexFBBHLast = some p → Anc (parent w.mapBlockIndex) tip p)
    {nHeight : ℤ} (h0 : 0 ≤ nHeight) (hhi : nHeight ≤ height w.mapBlockIndex tip) :
    ∃ p, findByHeight w nHeight = some p ∧ Anc (parent w.mapBlockIndex) tip p ∧
      (height w.mapBlockIndex p : ℤ) = nHeight := by
  have hclosed := linkClosed_of_links ht hl hb htip hgen
  obtain ⟨start, hstart⟩ : ∃ start, findStart w nHeight = some start := by
    unfold findStart
    simp only
    have hend : ∃ x, (if nHeight < w.nBestHeight.tdiv 2 then w.pindexGenesisBlock else
      w.pindexBest) = some x := by
      split_ifs
      · exact ⟨g, hgen⟩
      · exact ⟨tip, hb⟩
    obtain ⟨x, hx⟩ := hend
    rw [hx]
    split
    · rename_i hlast
      split_ifs
      · obtain ⟨y, hy, -⟩ := bind_eq_some_iff.1 hlast
        exact ⟨y, hy⟩
      · exact ⟨x, rfl⟩
    · exact ⟨x, rfl⟩
  have hanc : Anc (parent w.mapBlockIndex) tip start :=
    findStart_mem hclosed hcache hstart
  have hmem := ht.mem_of_anc hanc htip
  obtain ⟨mid, hmid, hmanc, hmh⟩ := walkPrev_ok ht hmem h0
    (((w.mapBlockIndex.lookup start).map CBlockIndex.nHeight).getD 0 + 2)
    (by simp only [height]; omega) (by omega)
  obtain ⟨r, hr, hranc, hrh⟩ := walkNext_ok (p := mid) ht hl (hanc.trans hmanc) htip (by omega) hhi
    (nHeight.toNat + 2) (by omega)
  refine ⟨r, ?_, hranc, hrh⟩
  rw [findByHeight, hstart, bind_some]
  simp only
  rw [hmid, bind_some, hr]

end

/-- **`IsInMainChain` holds of the best block and its ancestors, and of no other entry.** -/
theorem isInMainChain_iff (hl : Links w.mapBlockIndex tip) (hb : w.pindexBest = some tip) :
    w.isInMainChain p = true ↔ Anc (parent w.mapBlockIndex) tip p := by
  rw [World.isInMainChain, Bool.or_eq_true, beq_iff_eq, hb, some.injEq]
  constructor
  · rintro (h | rfl)
    · obtain ⟨q, hq⟩ := isSome_iff_exists.1 h
      obtain ⟨hqp, hanc⟩ := (hl p q).1 hq
      exact hanc.trans (.of_parent hqp)
    · exact .refl _
  · intro h
    rcases eq_or_ne tip p with rfl | hne
    · exact .inr rfl
    · obtain ⟨c, hc, hcp⟩ := h.exists_child hne
      exact .inl (by rw [(hl p c).2 ⟨hcp, hc⟩]; rfl)

end Espers
