import Mathlib.Data.List.NodupEquivFin

/-!
# Matching two lists in order

Every element of one list is to be matched with an element of another, and the matches are in the
order of both lists.  `greedy` takes the first match of every element, and gives up when fewer
candidates than elements are left.

* `greedy_eq_true_iff` : **the first match of an element is as good as any**, whatever the relation.
* `sublistForall₂_iff_strictMono` : a match of lists is a strictly increasing map of positions.
-/

namespace Matching

open List Bool

variable {α β : Type} {R : α → β → Prop} {a : α} {b : β} {as : List α} {bs : List β}

theorem length_le (h : List.SublistForall₂ R as bs) : as.length ≤ bs.length := by
  obtain ⟨l, hall, hsub⟩ := sublistForall₂_iff.mp h
  exact hall.length_eq.trans_le hsub.length_le

theorem of_cons (h : List.SublistForall₂ R (a :: as) bs) : List.SublistForall₂ R as bs := by
  obtain ⟨l, hall, hsub⟩ := sublistForall₂_iff.mp h
  cases hall with
  | cons _ hrest =>
    exact sublistForall₂_iff.mpr ⟨_, hrest, (sublist_cons_self _ _).trans hsub⟩

theorem tail (h : List.SublistForall₂ R (a :: as) (b :: bs)) : List.SublistForall₂ R as bs := by
  cases h with
  | cons _ hrest => exact hrest
  | cons_right hrest => exact of_cons hrest

theorem of_not (hR : ¬ R a b) (h : List.SublistForall₂ R (a :: as) (b :: bs)) :
    List.SublistForall₂ R (a :: as) bs := by
  cases h with
  | cons hab _ => exact absurd hab hR
  | cons_right hrest => exact hrest

theorem reverse_iff :
    List.SublistForall₂ R as.reverse bs.reverse ↔ List.SublistForall₂ R as bs := by
  have hrev : ∀ {as : List α} {bs : List β}, List.SublistForall₂ R as bs →
      List.SublistForall₂ R as.reverse bs.reverse := by
    intro as bs h
    obtain ⟨l, hall, hsub⟩ := sublistForall₂_iff.mp h
    exact sublistForall₂_iff.mpr
      ⟨l.reverse, forall₂_reverse_iff.mpr hall, reverse_sublist.mpr hsub⟩
  refine ⟨fun h => ?_, hrev⟩
  have hback := hrev h
  rwa [reverse_reverse, reverse_reverse] at hback

/-! ### The first match of every element -/

/-- The first match of every element is taken; fewer candidates than elements are not looked at. -/
def greedy (valid : α → β → Bool) : List β → List α → Bool
  | _, [] => true
  | [], _ :: _ => false
  | b :: bs, a :: as =>
    if valid a b then decide (as.length ≤ bs.length) && greedy valid bs as
    else decide (as.length + 1 ≤ bs.length) && greedy valid bs (a :: as)

variable {valid : α → β → Bool}

/-- What was matched is a match. -/
theorem of_greedy (h : greedy valid bs as = true) :
    List.SublistForall₂ (fun a b => valid a b = true) as bs := by
  induction bs generalizing as with
  | nil =>
    cases as with
    | nil => exact .nil
    | cons a as => cases h
  | cons b bs ih =>
    cases as with
    | nil => exact .nil
    | cons a as =>
      rw [greedy] at h
      split_ifs at h with hab
      · rw [and_eq_true] at h
        exact .cons hab (ih h.2)
      · rw [and_eq_true] at h
        exact .cons_right (ih h.2)

/-- By induction on the candidates: a match that does not begin with the first one that is valid can
be exchanged for one that does. -/
theorem greedy_of_match (h : List.SublistForall₂ (fun a b => valid a b = true) as bs) :
    greedy valid bs as = true := by
  induction bs generalizing as with
  | nil =>
    cases h
    rfl
  | cons b bs ih =>
    cases as with
    | nil => rfl
    | cons a as =>
      rw [greedy]
      split_ifs with hab
      · have hrest := tail h
        rw [and_eq_true, decide_eq_true_eq]
        exact ⟨length_le hrest, ih hrest⟩
      · have hrest := of_not (R := fun a b => valid a b = true) hab h
        rw [and_eq_true, decide_eq_true_eq]
        exact ⟨length_le hrest, ih hrest⟩

/-- **The first match of an element is as good as any.** -/
theorem greedy_eq_true_iff : greedy valid bs as = true ↔
    List.SublistForall₂ (fun a b => valid a b = true) as bs :=
  ⟨of_greedy, greedy_of_match⟩

/-! ### Matches as maps of positions -/

/-- **A match is a strictly increasing map of positions.** -/
theorem sublistForall₂_iff_strictMono : List.SublistForall₂ R as bs ↔
    ∃ f : Fin as.length → Fin bs.length, StrictMono f ∧ ∀ i, R (as.get i) (bs.get (f i)) := by
  rw [sublistForall₂_iff]
  constructor
  · rintro ⟨l, hall, hsub⟩
    obtain ⟨g, hg⟩ := sublist_iff_exists_fin_orderEmbedding_get_eq.mp hsub
    refine ⟨fun i => g (Fin.cast hall.length_eq i), fun i j hij => ?_, fun i => ?_⟩
    · exact g.strictMono (Fin.cast_lt_cast hall.length_eq |>.mpr hij)
    · rw [← hg]
      exact hall.get i.isLt (hall.length_eq ▸ i.isLt)
  · rintro ⟨f, hmono, hR⟩
    refine ⟨List.ofFn fun i => bs.get (f i), ?_, ?_⟩
    · rw [forall₂_iff_get]
      refine ⟨by rw [length_ofFn], fun i hi hi' => ?_⟩
      have := hR ⟨i, hi⟩
      simpa using this
    · refine sublist_iff_exists_fin_orderEmbedding_get_eq.mpr ⟨?_, ?_⟩
      · exact (Fin.castOrderIso length_ofFn).toOrderEmbedding.trans
          (OrderEmbedding.ofStrictMono f hmono)
      · intro i
        simp only [get_ofFn]
        rfl

end Matching
