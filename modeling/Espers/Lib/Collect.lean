import Mathlib.Data.List.Sort

/-!
# Collecting candidates for places

Candidates of several sources are merged into a set, which is kept as a list in order, and one after
the other takes the first open place it is valid for.

* `IsSet.ext` : a set is determined by its elements, and not by the order of their arrival.
* `assignAll_eq_find?` : **when every candidate is valid for one place at most, no place loses it to
  another**: each gets the first candidate that is valid for it.
-/

namespace Collect

open List Function

variable {α β : Type}

/-! ### Sets as lists in order -/

section Sets

variable {r : α → α → Prop} {a b : α} {s t l : List α}

/-- The list is in order, and has no element twice. -/
structure IsSet (r : α → α → Prop) (s : List α) : Prop where
  sorted : s.Pairwise r
  nodup : s.Nodup

theorem IsSet.nil : IsSet r [] := ⟨.nil, .nil⟩

theorem IsSet.ext [Std.Antisymm r] (hs : IsSet r s) (ht : IsSet r t) (h : ∀ a, a ∈ s ↔ a ∈ t) :
    s = t :=
  ((perm_ext_iff_of_nodup hs.nodup ht.nodup).mpr h).eq_of_pairwise' hs.sorted ht.sorted

variable [DecidableRel r] [DecidableEq α]

/-- An element is inserted at its place, unless it is there. -/
def insert (r : α → α → Prop) [DecidableRel r] (a : α) (s : List α) : List α :=
  if a ∈ s then s else s.orderedInsert r a

theorem mem_insert : b ∈ insert r a s ↔ b = a ∨ b ∈ s := by
  unfold insert
  split_ifs with h
  · refine ⟨.inr, ?_⟩
    rintro (rfl | hmem)
    · exact h
    · exact hmem
  · exact mem_orderedInsert r

theorem IsSet.insert [Std.Total r] [IsTrans α r] (hs : IsSet r s) (a : α) :
    IsSet r (insert r a s) := by
  unfold Collect.insert
  split_ifs with h
  · exact hs
  · refine ⟨hs.sorted.orderedInsert a s, ?_⟩
    rw [(perm_orderedInsert r a s).nodup_iff]
    exact nodup_cons.mpr ⟨h, hs.nodup⟩

/-- The elements of a list are inserted one after the other. -/
def insertAll (r : α → α → Prop) [DecidableRel r] (l s : List α) : List α :=
  l.foldl (fun s a => insert r a s) s

theorem mem_insertAll : b ∈ insertAll r l s ↔ b ∈ l ∨ b ∈ s := by
  induction l generalizing s with
  | nil => simp [insertAll]
  | cons a l ih =>
    show b ∈ insertAll r l (insert r a s) ↔ _
    rw [ih, mem_insert, mem_cons]
    tauto

theorem IsSet.insertAll [Std.Total r] [IsTrans α r] (hs : IsSet r s) (l : List α) :
    IsSet r (insertAll r l s) := by
  induction l generalizing s with
  | nil => exact hs
  | cons a l ih => exact ih (hs.insert a)

end Sets

/-! ### The first open place -/

section Places

variable [DecidableEq β] {valid : α → β → Bool} {a : α} {as : List α} {b : β} {bs : List β}
  {m : β → Option α}

/-- A candidate takes the first open place it is valid for. -/
def assign (valid : α → β → Bool) (a : α) : List β → (β → Option α) → β → Option α
  | [], m => m
  | b :: bs, m =>
    if (m b).isSome then assign valid a bs m
    else if valid a b then update m b (some a)
    else assign valid a bs m

theorem assign_of_not (h : (m b).isSome = true ∨ valid a b = false) :
    assign valid a bs m b = m b := by
  induction bs with
  | nil => rfl
  | cons b' bs ih =>
    rw [assign]
    split_ifs with htaken hvalid
    · exact ih
    · refine update_of_ne ?_ _ _
      rintro rfl
      rcases h with h | h
      · exact htaken h
      · rw [hvalid] at h
        cases h
    · exact ih

/-- The only place that a candidate is valid for is taken, when it is open. -/
theorem assign_of_valid (hb : b ∈ bs) (hone : ∀ b' ∈ bs, valid a b' = true → b' = b)
    (hvalid : valid a b = true) (hopen : m b = none) : assign valid a bs m b = some a := by
  induction bs with
  | nil => cases hb
  | cons b' bs ih =>
    have hrest := fun hmem => ih hmem fun b'' hmem' => hone b'' (.tail _ hmem')
    rw [assign]
    split_ifs with htaken hvalid'
    · rcases mem_cons.mp hb with rfl | hmem
      · rw [hopen] at htaken
        cases htaken
      · exact hrest hmem
    · obtain rfl := hone b' (.head _) hvalid'
      exact update_self _ _ _
    · rcases mem_cons.mp hb with rfl | hmem
      · exact absurd hvalid hvalid'
      · exact hrest hmem

/-- The candidates, one after the other. -/
def assignAll (valid : α → β → Bool) (bs : List β) (as : List α) : β → Option α :=
  as.foldl (fun m a => assign valid a bs m) fun _ => none

/-- **Every place gets the first candidate that is valid for it**, when a candidate is valid for one
place at most. -/
theorem assignAll_eq_find? (hone : ∀ a ∈ as, ∀ b ∈ bs, ∀ b' ∈ bs, valid a b = true →
    valid a b' = true → b = b') (hb : b ∈ bs) : assignAll valid bs as b =
      as.find? fun a => valid a b := by
  have hfold : ∀ m : β → Option α, as.foldl (fun m a => assign valid a bs m) m b =
      (m b).or (as.find? fun a => valid a b) := by
    induction as with
    | nil => exact fun m => (Option.or_none).symm
    | cons a as ih =>
      intro m
      rw [foldl_cons, ih fun a hmem => hone a (.tail _ hmem), List.find?_cons]
      cases hvalid : valid a b with
      | false => rw [assign_of_not (.inr hvalid)]
      | true =>
        cases hopen : m b with
        | none =>
          rw [assign_of_valid hb (fun b' hmem h => hone a (.head _) b' hmem b hb h hvalid) hvalid
            hopen]
          rfl
        | some a' =>
          rw [assign_of_not (.inl (by rw [hopen]; rfl)), hopen]
          rfl
  exact hfold _

end Places

end Collect
