import Mathlib.Data.Set.Basic

/-!
# Flags for spent outputs

A book of transactions knows the inputs of each, which outputs are its owner's, and flags outputs as
spent.  The flags are kept when every own output that a live transaction spends is flagged.

* `Kept.mono` : nothing is forgotten when flags are only added.
* `Kept.enter` : **a transaction enters the book**; the flags of some outputs may go if no live
  transaction spends them.
* `Kept.leave` : a transaction ceases to be live, and the flags of its inputs go.
-/

namespace Spends

variable {τ ω : Type*}

/-- The inputs of the transactions, the own outputs and those flagged as spent. -/
structure Book (τ ω : Type*) where
  inputs : τ → Set ω
  own : Set ω
  flagged : Set ω

/-- Every own output that a live transaction spends is flagged. -/
def Kept (b : Book τ ω) (live : Set τ) : Prop :=
  ∀ t ∈ live, ∀ o ∈ b.inputs t, o ∈ b.own → o ∈ b.flagged

variable {b b' : Book τ ω} {live live' : Set τ}

theorem Kept.mono (h : Kept b live) (hlive : ∀ t ∈ live', (b'.inputs t).Nonempty → t ∈ live)
    (hin : ∀ t, b'.inputs t ⊆ b.inputs t) (hown : b'.own ⊆ b.own) (hflag : b.flagged ⊆ b'.flagged) :
    Kept b' live' := by
  intro t ht o ho hmine
  exact hflag (h t (hlive t ht ⟨o, ho⟩) o (hin t ho) (hown hmine))

/-- **A transaction enters the book.**  Its inputs are flagged, and every other own output that a
live transaction spends is flagged now, or was the owner's before and kept its flag. -/
theorem Kept.enter {t : τ} (h : Kept b live) (hlive : ∀ u ∈ live', u ≠ t → u ∈ live)
    (hin : ∀ u, u ≠ t → b'.inputs u ⊆ b.inputs u)
    (hmark : ∀ o ∈ b'.inputs t, o ∈ b'.own → o ∈ b'.flagged)
    (hflag : ∀ u ∈ live', u ≠ t → ∀ o ∈ b'.inputs u, o ∈ b'.own →
      o ∈ b'.flagged ∨ o ∈ b.own ∧ (o ∈ b.flagged → o ∈ b'.flagged)) : Kept b' live' := by
  intro u hu o ho hmine
  by_cases hut : u = t
  · subst hut
    exact hmark o ho hmine
  · rcases hflag u hu hut o ho hmine with hnow | ⟨hbefore, hkept⟩
    · exact hnow
    · exact hkept (h u (hlive u hu hut) o (hin u hut ho) hbefore)

theorem Kept.leave {t : τ} (h : Kept b live) (freed : Set ω) (hlive : ∀ u ∈ live', u ∈ live ∧ u ≠ t)
    (hin : ∀ u, b'.inputs u ⊆ b.inputs u) (hown : b'.own ⊆ b.own)
    (hflag : ∀ o ∈ b.flagged, o ∉ freed → o ∈ b'.flagged)
    (halone : ∀ u ∈ live', u ≠ t → ∀ o ∈ b'.inputs u, o ∈ b'.own → o ∉ freed) : Kept b' live' := by
  intro u hu o ho hmine
  obtain ⟨hu', hne⟩ := hlive u hu
  exact hflag o (h u hu' o (hin u ho) (hown hmine)) (halone u hu hne o ho hmine)

end Spends
