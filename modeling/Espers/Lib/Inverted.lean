import Mathlib.Data.List.AList
import Mathlib.Data.List.Sort

/-!
# Inverted indexes

An inverted index lists, under each attribute, the set of the items that have it; an attribute that
no item has is not in it.  A set is a list in ascending order.

* `enter`, `leave` : an item is entered under an attribute, or leaves it, and the attribute with the
  last item.
* `lists_foldl_enter`, `lists_foldl_leave` : what is listed after an item was entered under some
  attributes, or has left them, in any order and with repetitions.
* `Sets` : the entries of the index are nonempty sets.
-/

namespace Inverted

open List AList

variable {ι κ : Type*} [DecidableEq κ] {m : AList fun _ : κ => List ι} {k k' : ι} {p p' : κ}
  {ps : List κ}

/-- The item is listed under the attribute. -/
def Lists (m : AList fun _ : κ => List ι) (p : κ) (k : ι) : Prop := ∃ l, m.lookup p = some l ∧ k ∈ l

/-- The entries are nonempty sets. -/
structure Sets (m : AList fun _ : κ => List ι) : Prop where
  nodup : ∀ p l, m.lookup p = some l → l.Nodup
  nonempty : ∀ p l, m.lookup p = some l → l ≠ []

theorem Sets.empty : Sets (∅ : AList fun _ : κ => List ι) := ⟨by simp, by simp⟩

variable {l : List ι}

theorem lists_of_lookup (h : m.lookup p = some l) : Lists m p k ↔ k ∈ l := by
  constructor
  · rintro ⟨l', hl', hk⟩
    rw [h] at hl'
    cases hl'
    exact hk
  · exact fun hk => ⟨l, h, hk⟩

theorem not_lists_of_lookup (h : m.lookup p = none) : ¬ Lists m p k := by
  rintro ⟨l, hl, -⟩
  rw [h] at hl
  cases hl

theorem lists_congr {m' : AList fun _ : κ => List ι} (h : m'.lookup p = m.lookup p) :
    Lists m' p k ↔ Lists m p k := by
  unfold Lists
  rw [h]

theorem mem_getD_lookup : k ∈ (m.lookup p).getD [] ↔ Lists m p k := by
  cases h : m.lookup p with
  | none => simp [not_lists_of_lookup h]
  | some l => exact (lists_of_lookup h).symm

/-! ### Sets as lists -/

variable [DecidableEq ι] {r : ι → ι → Prop} [DecidableRel r]

/-- An element is added to a set. -/
def insertSet (r : ι → ι → Prop) [DecidableRel r] (k : ι) (l : List ι) : List ι :=
  if k ∈ l then l else l.orderedInsert r k

theorem mem_insertSet : k' ∈ insertSet r k l ↔ k' = k ∨ k' ∈ l := by
  unfold insertSet
  split_ifs with h
  · refine ⟨.inr, ?_⟩
    rintro (rfl | h')
    · exact h
    · exact h'
  · exact mem_orderedInsert r

theorem nodup_insertSet (h : l.Nodup) : (insertSet r k l).Nodup := by
  unfold insertSet
  split_ifs with hk
  · exact h
  · exact ((perm_orderedInsert r k l).nodup_iff).2 (nodup_cons.2 ⟨hk, h⟩)

/-! ### Entering and leaving -/

/-- The item is entered under an attribute. -/
def enter (r : ι → ι → Prop) [DecidableRel r] (k : ι) (m : AList fun _ : κ => List ι) (p : κ) :
    AList fun _ : κ => List ι :=
  m.insert p (insertSet r k ((m.lookup p).getD []))

/-- The item leaves an attribute. -/
def leave (k : ι) (m : AList fun _ : κ => List ι) (p : κ) : AList fun _ : κ => List ι :=
  match m.lookup p with
  | none => m
  | some l => if l.erase k = [] then m.erase p else m.insert p (l.erase k)

theorem lookup_enter_self : (enter r k m p).lookup p =
    some (insertSet r k ((m.lookup p).getD [])) :=
  lookup_insert m

theorem lookup_enter_ne (hp : p' ≠ p) : (enter r k m p).lookup p' = m.lookup p' :=
  lookup_insert_ne hp

theorem lists_enter : Lists (enter r k m p) p' k' ↔ p' = p ∧ k' = k ∨ Lists m p' k' := by
  by_cases hp : p' = p
  · subst hp
    rw [lists_of_lookup lookup_enter_self, mem_insertSet, mem_getD_lookup]
    simp
  · rw [lists_congr (lookup_enter_ne hp)]
    simp [hp]

theorem Sets.enter (h : Sets m) : Sets (enter r k m p) := by
  have hold : ((m.lookup p).getD []).Nodup := by
    cases hl : m.lookup p with
    | none => exact nodup_nil
    | some l => exact h.nodup p l hl
  constructor
  · intro p' l hl
    by_cases hp : p' = p
    · subst hp
      rw [lookup_enter_self, Option.some.injEq] at hl
      exact hl ▸ nodup_insertSet hold
    · rw [lookup_enter_ne hp] at hl
      exact h.nodup p' l hl
  · intro p' l hl
    by_cases hp : p' = p
    · subst hp
      rw [lookup_enter_self, Option.some.injEq] at hl
      exact ne_nil_of_mem (hl ▸ mem_insertSet.2 (.inl rfl))
    · rw [lookup_enter_ne hp] at hl
      exact h.nonempty p' l hl

theorem lookup_leave_ne (hp : p' ≠ p) : (leave k m p).lookup p' = m.lookup p' := by
  unfold leave
  split
  · rfl
  · split_ifs
    · exact lookup_erase_ne hp
    · exact lookup_insert_ne hp

theorem lookup_leave_self (h : (leave k m p).lookup p = some l) :
    ∃ l', m.lookup p = some l' ∧ l = l'.erase k ∧ l ≠ [] := by
  unfold leave at h
  split at h
  · rename_i hnone
    rw [hnone] at h
    cases h
  · rename_i l' hl'
    split_ifs at h with hempty
    · rw [lookup_erase] at h
      cases h
    · rw [lookup_insert, Option.some.injEq] at h
      exact ⟨l', hl', h.symm, h ▸ hempty⟩

theorem lists_leave (h : Sets m) : Lists (leave k m p) p' k' ↔ Lists m p' k' ∧
    ¬ (p' = p ∧ k' = k) := by
  by_cases hp : p' = p
  · subst hp
    simp only [true_and]
    constructor
    · rintro ⟨l, hl, hk⟩
      obtain ⟨l', hl', rfl, -⟩ := lookup_leave_self hl
      rw [(h.nodup p' l' hl').mem_erase_iff] at hk
      exact ⟨⟨l', hl', hk.2⟩, hk.1⟩
    · rintro ⟨⟨l, hl, hk⟩, hne⟩
      have hmem : k' ∈ l.erase k := (h.nodup p' l hl).mem_erase_iff.2 ⟨hne, hk⟩
      have hleft : (leave k m p').lookup p' = some (l.erase k) := by
        simp only [leave, hl, if_neg (ne_nil_of_mem hmem), lookup_insert]
      exact ⟨_, hleft, hmem⟩
  · rw [lists_congr (lookup_leave_ne hp)]
    simp [hp]

theorem Sets.leave (h : Sets m) : Sets (leave k m p) := by
  constructor
  · intro p' l hl
    by_cases hp : p' = p
    · subst hp
      obtain ⟨l', hl', rfl, -⟩ := lookup_leave_self hl
      exact (h.nodup p' l' hl').erase k
    · rw [lookup_leave_ne hp] at hl
      exact h.nodup p' l hl
  · intro p' l hl
    by_cases hp : p' = p
    · subst hp
      obtain ⟨-, -, -, hne⟩ := lookup_leave_self hl
      exact hne
    · rw [lookup_leave_ne hp] at hl
      exact h.nonempty p' l hl

theorem Sets.foldl_enter (h : Sets m) : Sets (ps.foldl (Inverted.enter r k) m) := by
  induction ps generalizing m with
  | nil => exact h
  | cons p ps ih => exact ih h.enter

theorem Sets.foldl_leave (h : Sets m) : Sets (ps.foldl (Inverted.leave k) m) := by
  induction ps generalizing m with
  | nil => exact h
  | cons p ps ih => exact ih h.leave

theorem lists_foldl_enter :
    Lists (ps.foldl (enter r k) m) p' k' ↔ p' ∈ ps ∧ k' = k ∨ Lists m p' k' := by
  induction ps generalizing m with
  | nil => simp
  | cons p ps ih =>
    rw [foldl_cons, ih, lists_enter, mem_cons, or_and_right, or_left_comm, or_assoc]

theorem lists_foldl_leave (h : Sets m) :
    Lists (ps.foldl (leave k) m) p' k' ↔ Lists m p' k' ∧ ¬ (p' ∈ ps ∧ k' = k) := by
  induction ps generalizing m with
  | nil => simp
  | cons p ps ih =>
    rw [foldl_cons, ih h.leave, lists_leave h, mem_cons, or_and_right, not_or, and_assoc]

end Inverted
