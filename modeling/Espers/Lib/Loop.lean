import Mathlib.Data.Nat.Notation

/-!
# Loops that may not end

A loop is its body: from a state it goes on with another state, or leaves with a result.

* `Ends.unique` : a loop leaves with one result at most.
* `exists_run` : **the rule for total correctness**, with an invariant and a measure
  that decreases, which bounds the rounds.
* `not_ends_of_invariant` : **the rule for divergence**, with an invariant under which the body
  never leaves.
-/

namespace Loop

universe u v

variable {σ : Type u} {ρ : Type v} {body : σ → σ ⊕ ρ} {s s' : σ} {r r' : ρ}

/-- The result of `n` rounds at most. -/
def run (body : σ → σ ⊕ ρ) : ℕ → σ → Option ρ
  | 0, _ => none
  | n + 1, s =>
    match body s with
    | .inl s' => run body n s'
    | .inr r => some r

/-- The loop leaves with the result. -/
def Ends (body : σ → σ ⊕ ρ) (s : σ) (r : ρ) : Prop := ∃ n, run body n s = some r

theorem run_of_next (h : body s = .inl s') (n : ℕ) : run body (n + 1) s = run body n s' := by
  rw [run, h]

theorem run_of_exit (h : body s = .inr r) (n : ℕ) : run body (n + 1) s = some r := by
  rw [run, h]

theorem ends_of_exit (h : body s = .inr r) : Ends body s r := ⟨1, run_of_exit h 0⟩

theorem ends_iff_of_next (h : body s = .inl s') : Ends body s r ↔ Ends body s' r := by
  constructor
  · rintro ⟨n, hn⟩
    cases n with
    | zero => cases hn
    | succ n => exact ⟨n, by rwa [run_of_next h] at hn⟩
  · rintro ⟨n, hn⟩
    exact ⟨n + 1, by rwa [run_of_next h]⟩

theorem ends_iff_of_exit (h : body s = .inr r) : Ends body s r' ↔ r' = r := by
  constructor
  · rintro ⟨n, hn⟩
    cases n with
    | zero => cases hn
    | succ n =>
      rw [run_of_exit h] at hn
      exact (Option.some.inj hn).symm
  · rintro rfl
    exact ends_of_exit h

theorem Ends.unique (h : Ends body s r) (h' : Ends body s r') : r = r' := by
  obtain ⟨n, hn⟩ := h
  induction n generalizing s with
  | zero => cases hn
  | succ n ih =>
    cases hb : body s with
    | inl t =>
      rw [run_of_next hb] at hn
      exact ih ((ends_iff_of_next hb).1 h') hn
    | inr t => rw [(ends_iff_of_exit hb).1 h', (ends_iff_of_exit hb).1 ⟨n + 1, hn⟩]

theorem run_mono {n m : ℕ} (hnm : n ≤ m) (h : run body n s = some r) : run body m s = some r := by
  induction n generalizing m s with
  | zero => cases h
  | succ n ih =>
    obtain ⟨m, rfl⟩ : ∃ k, m = k + 1 := ⟨m - 1, by omega⟩
    cases hb : body s with
    | inl t =>
      rw [run_of_next hb] at h ⊢
      exact ih (by omega) h
    | inr t =>
      rw [run_of_exit hb] at h ⊢
      exact h

/-- **Total correctness with a bound**: the measure bounds the rounds. -/
theorem exists_run (I : σ → Prop) (Q : ρ → Prop) (μ : σ → ℕ)
    (hnext : ∀ s s', I s → body s = .inl s' → I s' ∧ μ s' < μ s)
    (hexit : ∀ s r, I s → body s = .inr r → Q r) (hs : I s) :
    ∃ r, run body (μ s + 1) s = some r ∧ Q r := by
  induction hn : μ s using Nat.strongRecOn generalizing s with
  | ind n ih =>
    cases hb : body s with
    | inl s' =>
      obtain ⟨hs', hlt⟩ := hnext s s' hs hb
      obtain ⟨r, hr, hq⟩ := ih (μ s') (hn ▸ hlt) hs' rfl
      exact ⟨r, by rw [run_of_next hb]; exact run_mono (by omega) hr, hq⟩
    | inr r => exact ⟨r, run_of_exit hb n, hexit s r hs hb⟩

/-- **Divergence**: the body never leaves under the invariant. -/
theorem not_ends_of_invariant (I : σ → Prop) (hI : ∀ s, I s → ∃ s', body s = .inl s' ∧ I s')
    (hs : I s) : ¬Ends body s r := by
  rintro ⟨n, hn⟩
  induction n generalizing s with
  | zero => cases hn
  | succ n ih =>
    obtain ⟨s', hb, hs'⟩ := hI s hs
    rw [run_of_next hb] at hn
    exact ih hs' hn

theorem not_ends_of_stuck (h : body s = .inl s) : ¬Ends body s r :=
  not_ends_of_invariant (· = s) (fun _ ht => ⟨s, ht ▸ h, rfl⟩) rfl

end Loop
