import Mathlib.Data.List.TakeWhile

/-!
# The tokens of a text

A text is cut at the occurrences of a separator.

* `next` : the next token and what is left, as a tokenizer with a position yields them; separators
  before the token are skipped.
* `words` : the parts between the separators that are not empty.
* `next_spec` : **the tokenizer yields the words**, one after the other.
-/

namespace Tokens

open List

variable {α : Type*} [DecidableEq α] {d : α} {s w rest : List α}

/-- The next token, and what is behind the separator after it. -/
def next (d : α) (s : List α) : Option (List α × List α) :=
  match s.dropWhile (· = d) with
  | [] => none
  | c :: rest => some ((c :: rest).takeWhile (· ≠ d), ((c :: rest).dropWhile (· ≠ d)).drop 1)

/-- The parts between the separators that are not empty. -/
def words (d : α) (s : List α) : List (List α) := (s.splitOn d).filter (· ≠ [])

theorem ne_of_notMem (hd : d ∉ w) {c : α} (hc : c ∈ w) : decide (c ≠ d) = true := by
  refine decide_eq_true ?_
  rintro rfl
  exact hd hc

theorem takeWhile_append (hd : d ∉ w) : (w ++ d :: rest).takeWhile (· ≠ d) = w := by
  rw [takeWhile_append_of_pos fun c hc => ne_of_notMem hd hc,
    takeWhile_cons_of_neg (by simp), append_nil]

theorem dropWhile_append (hd : d ∉ w) : (w ++ d :: rest).dropWhile (· ≠ d) = d :: rest := by
  rw [dropWhile_append_of_pos fun c hc => ne_of_notMem hd hc, dropWhile_cons_of_neg (by simp)]

theorem takeWhile_self (hd : d ∉ w) : w.takeWhile (· ≠ d) = w :=
  takeWhile_eq_self_iff.mpr fun _ hc => ne_of_notMem hd hc

theorem dropWhile_self (hd : d ∉ w) : w.dropWhile (· ≠ d) = [] :=
  dropWhile_eq_nil_iff.mpr fun _ hc => ne_of_notMem hd hc

/-! ### The next token -/

theorem next_cons_self : next d (d :: s) = next d s := by
  rw [next, dropWhile_cons_of_pos (by simp)]
  rfl

theorem next_append_cons (hne : w ≠ []) (hd : d ∉ w) :
    next d (w ++ d :: rest) = some (w, rest) := by
  cases w with
  | nil => exact absurd rfl hne
  | cons c w =>
    have hc : c ≠ d := fun heq => hd (heq ▸ .head _)
    rw [next, cons_append, dropWhile_cons_of_neg (by simpa using hc)]
    change some ((c :: w ++ d :: rest).takeWhile (· ≠ d),
      ((c :: w ++ d :: rest).dropWhile (· ≠ d)).drop 1) = _
    rw [takeWhile_append hd, dropWhile_append hd]
    rfl

theorem next_self (hne : w ≠ []) (hd : d ∉ w) : next d w = some (w, []) := by
  cases w with
  | nil => exact absurd rfl hne
  | cons c w =>
    have hc : c ≠ d := fun heq => hd (heq ▸ .head _)
    rw [next, dropWhile_cons_of_neg (by simpa using hc)]
    change some ((c :: w).takeWhile (· ≠ d), ((c :: w).dropWhile (· ≠ d)).drop 1) = _
    rw [takeWhile_self hd, dropWhile_self hd]
    rfl

/-! ### The words -/

@[simp] theorem words_nil : words d [] = [] := by
  rfl

theorem words_cons_self : words d (d :: s) = words d s := by
  have hsplit : (d :: s).splitOn d = [] :: s.splitOn d :=
    splitOn_append_cons_self_of_not_mem not_mem_nil s
  rw [words, hsplit, filter_cons_of_neg (by simp)]
  rfl

theorem words_append_cons (hne : w ≠ []) (hd : d ∉ w) :
    words d (w ++ d :: rest) = w :: words d rest := by
  rw [words, splitOn_append_cons_self_of_not_mem hd, filter_cons_of_pos (by simpa using hne)]
  rfl

theorem words_self (hne : w ≠ []) (hd : d ∉ w) : words d w = [w] := by
  rw [words, splitOn_eq_singleton hd, filter_cons_of_pos (by simpa using hne)]
  rfl

/-- **The tokenizer yields the words**, one after the other. -/
theorem next_spec (d : α) (s : List α) : match next d s with
    | none => words d s = []
    | some (w, rest) => words d s = w :: words d rest ∧ w ≠ [] ∧ d ∉ w ∧ w ⊆ s ∧ rest ⊆ s := by
  induction s with
  | nil => exact words_nil
  | cons c s ih =>
    by_cases hc : c = d
    · subst hc
      rw [next_cons_self, words_cons_self]
      cases h : next c s with
      | none =>
        rw [h] at ih
        exact ih
      | some p =>
        rw [h] at ih
        obtain ⟨hwords, hne, hd, hw, hrest⟩ := ih
        exact ⟨hwords, hne, hd, List.Subset.trans hw (subset_cons_self c s),
          List.Subset.trans hrest (subset_cons_self c s)⟩
    · -- the first token ends at the first separator, or it is the whole text
      by_cases hmem : d ∈ c :: s
      · obtain ⟨w, rest, heq, hd⟩ := eq_append_cons_of_mem hmem
        have hne : w ≠ [] := by
          rintro rfl
          exact hc (List.cons.inj heq).1
        rw [heq, next_append_cons hne hd]
        exact ⟨words_append_cons hne hd, hne, hd, subset_append_left _ _,
          List.Subset.trans (subset_cons_self d rest) (subset_append_right _ _)⟩
      · rw [next_self (cons_ne_nil c s) hmem]
        refine ⟨?_, cons_ne_nil c s, hmem, List.Subset.refl _, nil_subset _⟩
        rw [words_self (cons_ne_nil c s) hmem, words_nil]

theorem words_of_next_eq_none (h : next d s = none) : words d s = [] := by
  have hnext := next_spec d s
  rwa [h] at hnext

theorem of_next_eq_some (h : next d s = some (w, rest)) :
    words d s = w :: words d rest ∧ w ≠ [] ∧ d ∉ w ∧ w ⊆ s ∧ rest ⊆ s := by
  have hnext := next_spec d s
  rwa [h] at hnext

/-- A word has no separator, and its letters are in the text. -/
theorem of_mem_words (h : w ∈ words d s) : w ≠ [] ∧ d ∉ w ∧ w ⊆ s := by
  generalize hws : words d s = ws at h
  induction ws generalizing s with
  | nil => cases h
  | cons v ws ih =>
    cases hnext : next d s with
    | none =>
      rw [words_of_next_eq_none hnext] at hws
      cases hws
    | some p =>
      obtain ⟨hwords, hne, hd, hv, hrest⟩ := of_next_eq_some hnext
      rw [hwords] at hws
      obtain ⟨rfl, htail⟩ := List.cons.inj hws
      rcases mem_cons.mp h with rfl | h
      · exact ⟨hne, hd, hv⟩
      · obtain ⟨hne', hd', hw⟩ := ih htail h
        exact ⟨hne', hd', List.Subset.trans hw hrest⟩

end Tokens
