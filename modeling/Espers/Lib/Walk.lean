import Mathlib.Data.List.Basic
import Mathlib.Logic.Relation

/-!
# Walks to the end

`last next fuel a` follows the partial function `next` from `a` to the element that has no
successor.

* `reaches_last` : a walk that ended was a walk.
* `last_spec`, `exists_last` : **without a cycle the end is reached** within as many steps as there
  are elements to visit.
-/

namespace Walk

open Relation

variable {α : Type}

/-- Follow `next` to the end; `none` when the fuel does not suffice. -/
def last (next : α → Option α) : ℕ → α → Option α
  | 0, _ => none
  | fuel + 1, a =>
    match next a with
    | none => some a
    | some b => last next fuel b

/-- One step of a walk. -/
def Step (next : α → Option α) (a b : α) : Prop := next a = some b

variable {next : α → Option α}

theorem reaches_last {fuel : ℕ} {a z : α} (h : last next fuel a = some z) :
    ReflTransGen (Step next) a z := by
  induction fuel generalizing a with
  | zero => cases h
  | succ fuel ih =>
    cases hn : next a with
    | none =>
      simp only [last, hn, Option.some.injEq] at h
      exact h ▸ .refl
    | some b =>
      simp only [last, hn] at h
      exact .head hn (ih h)

theorem last_spec [DecidableEq α] (hacyclic : ∀ a, ¬ TransGen (Step next) a a) (fuel : ℕ) (a : α)
    (l : List α) (hl : ∀ b, TransGen (Step next) a b → b ∈ l) (hfuel : l.length < fuel) :
    ∃ z, last next fuel a = some z ∧ ReflTransGen (Step next) a z ∧ next z = none := by
  induction fuel generalizing a l with
  | zero => exact absurd hfuel (Nat.not_lt_zero _)
  | succ fuel ih =>
    cases hn : next a with
    | none => exact ⟨a, by simp only [last, hn], .refl, hn⟩
    | some b =>
      have hb : b ∈ l := hl b (.single hn)
      -- what comes after `b` is not `b` again
      have hlater : ∀ c, TransGen (Step next) b c → c ∈ l.erase b := by
        intro c hc
        have hne : c ≠ b := by
          rintro rfl
          exact hacyclic c hc
        exact (List.mem_erase_of_ne hne).2 (hl c (.head hn hc))
      have hlen : (l.erase b).length < fuel := by
        have := List.length_pos_of_mem hb
        rw [List.length_erase_of_mem hb]
        omega
      obtain ⟨z, hz, hreach, hend⟩ := ih b (l.erase b) hlater hlen
      refine ⟨z, ?_, .head hn hreach, hend⟩
      simp only [last, hn]
      exact hz

/-- **The end is reached** when each step leads to an element of `l` and `f` follows an acyclic
relation along it. -/
theorem exists_last [DecidableEq α] {β : Type} {r : β → β → Prop} (f : α → β)
    {l : List α} (hr : ∀ b, ¬ TransGen r b b) (h : ∀ a b, next a = some b → r (f a) (f b) ∧ b ∈ l)
    {fuel : ℕ} (hfuel : l.length < fuel) (a : α) :
    ∃ z, last next fuel a = some z ∧ ReflTransGen (Step next) a z ∧ next z = none := by
  refine last_spec (fun b hb => ?_) fuel a l (fun b hb => ?_) hfuel
  · exact hr (f b) (hb.lift f fun a b hab => (h a b hab).1)
  · cases hb with
    | single hab => exact (h _ _ hab).2
    | tail _ hab => exact (h _ _ hab).2

end Walk
