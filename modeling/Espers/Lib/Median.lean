import Mathlib.Order.Lattice

/-!
# Medians

The middle element of an odd number of values.

* `isMedian_getElem` : the middle element of the sorted values is their median.
* `IsMedian.eq_iff_count` : **the median is the least possible value exactly if more than half of
  the values are.**
-/

namespace Median

open List

variable {α : Type*} [LinearOrder α]

/-- A value of the list with fewer than half of the values below it, and fewer than half above. -/
structure IsMedian (l : List α) (m : α) : Prop where
  mem : m ∈ l
  below : 2 * l.countP (· < m) < l.length
  above : 2 * l.countP (m < ·) < l.length

section Sorted

variable {s : List α} {i : ℕ}

theorem countP_lt_getElem_le (hs : s.Pairwise (· ≤ ·)) (hi : i < s.length) :
    s.countP (· < s[i]) ≤ i := by
  have hpairwise := hs.sublist (drop_sublist i s)
  rw [drop_eq_getElem_cons hi, pairwise_cons] at hpairwise
  have hdrop : (s.drop i).countP (· < s[i]) = 0 := by
    rw [countP_eq_zero, drop_eq_getElem_cons hi]
    rintro x (_ | ⟨_, hx⟩)
    · simp
    · simpa using hpairwise.1 x hx
  calc s.countP (· < s[i]) = (s.take i).countP (· < s[i]) + (s.drop i).countP (· < s[i]) := by
        rw [← countP_append, take_append_drop]
    _ ≤ i := by
        rw [hdrop, Nat.add_zero]
        exact Nat.le_trans countP_le_length (length_take_le i s)

theorem countP_getElem_lt_lt (hs : s.Pairwise (· ≤ ·)) (hi : i < s.length) :
    s.countP (s[i] < ·) < s.length - i := by
  have hpairwise := hs
  rw [← take_append_drop i s, drop_eq_getElem_cons hi, pairwise_append]
    at hpairwise
  have htake : (s.take i).countP (s[i] < ·) = 0 := by
    rw [countP_eq_zero]
    intro x hx
    simpa using hpairwise.2.2 x hx _ (.head _)
  calc s.countP (s[i] < ·) = (s.take i).countP (s[i] < ·) + (s.drop i).countP (s[i] < ·) := by
        rw [← countP_append, take_append_drop]
    _ = (s.drop (i + 1)).countP (s[i] < ·) := by
        rw [htake, Nat.zero_add, drop_eq_getElem_cons hi, countP_cons_of_neg (by simp)]
    _ < s.length - i := by
        have := countP_le_length (p := (s[i] < ·)) (l := s.drop (i + 1))
        rw [length_drop] at this
        omega

end Sorted

theorem isMedian_getElem {s l : List α} (hs : s.Pairwise (· ≤ ·)) (hperm : s.Perm l) {i : ℕ}
    (hi : i < s.length) (hmiddle : 2 * i + 1 = s.length) : IsMedian l s[i] := by
  have hbelow := countP_lt_getElem_le hs hi
  have habove := countP_getElem_lt_lt hs hi
  refine ⟨hperm.mem_iff.1 (getElem_mem hi), ?_, ?_⟩
  · rw [← hperm.countP_eq, ← hperm.length_eq]
    omega
  · rw [← hperm.countP_eq, ← hperm.length_eq]
    omega

/-- The median is the least possible value exactly if more than half of the values are. -/
theorem IsMedian.eq_iff_count {l : List α} {m b : α} (h : IsMedian l m) (hb : ∀ x ∈ l, b ≤ x) :
    m = b ↔ l.length < 2 * l.count b := by
  constructor
  · rintro rfl
    have hcount : l.count m = l.countP (¬ m < ·) := by
      refine countP_congr fun x hx => ?_
      simp only [beq_iff_eq, decide_eq_true_eq, not_lt]
      exact ⟨fun heq => heq.le, fun hle => le_antisymm hle (hb x hx)⟩
    have hsplit := length_eq_countP_add_countP (m < ·) (l := l)
    have habove := h.above
    simp only [decide_eq_true_eq] at hsplit
    omega
  · intro hhalf
    by_contra hne
    have hlt : b < m := lt_of_le_of_ne (hb m h.mem) (Ne.symm hne)
    have hle : l.count b ≤ l.countP (· < m) := by
      refine countP_mono_left fun x _ hx => ?_
      rw [beq_iff_eq.1 hx]
      exact decide_eq_true hlt
    have hbelow := h.below
    omega

end Median
