import Mathlib.Data.List.Basic
import Mathlib.Data.List.Flatten

/-!
# Texts of tokens

A lexer takes the first token off a text, and what follows a token makes no difference to it.  A
text is its tokens and a rest that begins with none.

* `Splits.unique` : there is one way to split a text.
* `delete_delete`, `delete_comm` : **tokens are deleted once and for all, and in any order**.
* `prefix_iff` : a text that begins with the letters of a token begins with the token.
-/

/-- What takes the first token off a text. -/
structure Lexer (α : Type) where
  next : List α → Option (List α × List α)
  split : ∀ {s t rest : List α}, next s = some (t, rest) → s = t ++ rest ∧ t ≠ []
  alone : ∀ {s t rest : List α} (r : List α), next s = some (t, rest) → next (t ++ r) = some (t, r)

namespace Lexer

open List

variable {α : Type} {L : Lexer α} {s t u rest tail tail' : List α} {ts ts' : List (List α)}

/-- The letters of one token. -/
def IsToken (L : Lexer α) (t : List α) : Prop := L.next t = some (t, [])

theorem IsToken.ne_nil (h : L.IsToken t) : t ≠ [] := (L.split h).2

theorem IsToken.next_append (h : L.IsToken t) (r : List α) : L.next (t ++ r) = some (t, r) :=
  L.alone r h

theorem next_eq_some_iff : L.next s = some (t, rest) ↔ L.IsToken t ∧ s = t ++ rest := by
  constructor
  · intro h
    refine ⟨?_, (L.split h).1⟩
    have halone := L.alone [] h
    rwa [append_nil] at halone
  · rintro ⟨ht, rfl⟩
    exact ht.next_append rest

/-- **A text that begins with the letters of a token begins with the token.** -/
theorem prefix_iff (ht : L.IsToken t) : t <+: s ↔ ∃ rest, L.next s = some (t, rest) := by
  constructor
  · rintro ⟨rest, rfl⟩
    exact ⟨rest, ht.next_append rest⟩
  · rintro ⟨rest, h⟩
    exact ⟨rest, (L.split h).1.symm⟩

/-! ### Splitting a text -/

/-- The tokens of a text, and the rest. -/
structure Splits (L : Lexer α) (s : List α) (ts : List (List α)) (tail : List α) : Prop where
  eq : s = ts.flatten ++ tail
  tokens : ∀ t ∈ ts, L.IsToken t
  stuck : L.next tail = none

theorem Splits.nil (h : L.next s = none) : L.Splits s [] s := ⟨rfl, by simp, h⟩

theorem Splits.cons (ht : L.IsToken t) (h : L.Splits s ts tail) :
    L.Splits (t ++ s) (t :: ts) tail where
  eq := by rw [h.eq, flatten_cons, append_assoc]
  tokens := by
    rintro u (_ | ⟨_, hmem⟩)
    · exact ht
    · exact h.tokens u hmem
  stuck := h.stuck

theorem exists_splits (L : Lexer α) (s : List α) : ∃ ts tail, L.Splits s ts tail := by
  induction hn : s.length using Nat.strongRecOn generalizing s with
  | ind n ih =>
    cases h : L.next s with
    | none => exact ⟨[], s, .nil h⟩
    | some r =>
      obtain ⟨t, rest⟩ := r
      obtain ⟨ht, rfl⟩ := next_eq_some_iff.mp h
      have hpos := length_pos_iff.mpr ht.ne_nil
      rw [length_append] at hn
      obtain ⟨ts, tail, hrest⟩ := ih rest.length (by omega) rest rfl
      exact ⟨t :: ts, tail, hrest.cons ht⟩

/-- There is one way to split a text. -/
theorem Splits.unique (h : L.Splits s ts tail) (h' : L.Splits s ts' tail') :
    ts = ts' ∧ tail = tail' := by
  induction ts generalizing s ts' with
  | nil =>
    have hs : s = tail := h.eq
    cases ts' with
    | nil => exact ⟨rfl, hs.symm.trans h'.eq⟩
    | cons t ts' =>
      have hnext := (h'.tokens t mem_cons_self).next_append (ts'.flatten ++ tail')
      rw [← append_assoc, ← flatten_cons, ← h'.eq, hs, h.stuck] at hnext
      cases hnext
  | cons t ts ih =>
    have hnext := (h.tokens t mem_cons_self).next_append (ts.flatten ++ tail)
    rw [← append_assoc, ← flatten_cons, ← h.eq] at hnext
    cases ts' with
    | nil =>
      rw [show s = tail' from h'.eq, h'.stuck] at hnext
      cases hnext
    | cons t' ts' =>
      have hnext' := (h'.tokens t' mem_cons_self).next_append (ts'.flatten ++ tail')
      rw [← append_assoc, ← flatten_cons, ← h'.eq, hnext] at hnext'
      obtain ⟨rfl, hrest⟩ := Prod.mk.inj (Option.some.inj hnext')
      obtain ⟨rfl, rfl⟩ := ih (s := ts.flatten ++ tail)
        ⟨rfl, fun u hu => h.tokens u (.tail _ hu), h.stuck⟩
        ⟨hrest, fun u hu => h'.tokens u (.tail _ hu), h'.stuck⟩
      exact ⟨rfl, rfl⟩

/-! ### Deleting a token -/

theorem Splits.filter (h : L.Splits s ts tail) (p : List α → Bool) :
    L.Splits ((ts.filter p).flatten ++ tail) (ts.filter p) tail :=
  ⟨rfl, fun t ht => h.tokens t (mem_of_mem_filter ht), h.stuck⟩

variable [DecidableEq α]

/-- `s'` is `s` with every token `t` deleted. -/
def Deletes (L : Lexer α) (t s s' : List α) : Prop :=
  ∃ ts tail, L.Splits s ts tail ∧ s' = (ts.filter (· ≠ t)).flatten ++ tail

variable {s' s'' s1 s2 : List α}

theorem Splits.deletes_iff (h : L.Splits s ts tail) :
    L.Deletes t s s' ↔ s' = (ts.filter (· ≠ t)).flatten ++ tail := by
  constructor
  · rintro ⟨ts', tail', h', rfl⟩
    obtain ⟨rfl, rfl⟩ := h.unique h'
    rfl
  · rintro rfl
    exact ⟨ts, tail, h, rfl⟩

/-- **Two tokens are deleted in any order.** -/
theorem Deletes.comm (h1 : L.Deletes t s s1) (h : L.Deletes u s1 s') (h2 : L.Deletes u s s2) :
    L.Deletes t s2 s' := by
  obtain ⟨ts, tail, hs, rfl⟩ := h1
  obtain rfl := hs.deletes_iff.mp h2
  obtain rfl := (hs.filter _).deletes_iff.mp h
  refine (hs.filter _).deletes_iff.mpr ?_
  rw [filter_comm]

end Lexer
