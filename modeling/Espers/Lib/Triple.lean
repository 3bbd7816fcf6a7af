import Espers.Lib.Exec

/-!
# Triples

A Hoare logic for programs with a state that may stop, and an order of programs by what they do when
they do not stop.

* `Triple P x Q R` : from a state with `P`, the program ends with `Q`, or stops with an `R`.
* `Below x y` : what `x` does when it does not stop, `y` does as well.
-/

namespace Exec

variable {ε σ α β : Type}

/-- From a state with `P`, the program ends with `Q`, or stops with an `R`. -/
def Triple (P : σ → Prop) (x : EStateM ε σ α) (Q : α → σ → Prop) (R : ε → Prop) : Prop :=
  ∀ s, P s → match x s with
    | .ok a t => Q a t
    | .error e _ => R e

namespace Triple

variable {P P' : σ → Prop} {Q Q' : α → σ → Prop} {R : ε → Prop} {x y : EStateM ε σ α}
  {f : α → EStateM ε σ β} {S : β → σ → Prop}

theorem ok (h : Triple P x Q R) {s t : σ} {a : α} (hs : P s) (hx : x s = .ok a t) : Q a t := by
  have := h s hs
  rwa [hx] at this

theorem error (h : Triple P x Q R) {s t : σ} {e : ε} (hs : P s) (hx : x s = .error e t) : R e := by
  have := h s hs
  rwa [hx] at this

theorem of_eq (h : ∀ s, P s → ∃ a t, x s = .ok a t ∧ Q a t) : Triple P x Q R := by
  intro s hs
  obtain ⟨a, t, hx, hq⟩ := h s hs
  rw [hx]
  exact hq

theorem pre (h : Triple P x Q R) (hp : ∀ s, P' s → P s) : Triple P' x Q R :=
    fun s hs => h s (hp s hs)

theorem post (h : Triple P x Q R) (hq : ∀ a t, Q a t → Q' a t) : Triple P x Q' R := by
  intro s hs
  have := h s hs
  cases hx : x s with
  | ok a t =>
    rw [hx] at this
    exact hq a t this
  | error e t =>
    rw [hx] at this
    exact this

theorem pure {a : α} (h : ∀ s, P s → Q a s) : Triple P (pure a : EStateM ε σ α) Q R := h

theorem throw {e : ε} (h : R e) : Triple P (throw e : EStateM ε σ α) Q R := fun _ _ => h

theorem modify {g : σ → σ} {Q : PUnit → σ → Prop} (h : ∀ s, P s → Q ⟨⟩ (g s)) :
    Triple P (modify g : EStateM ε σ PUnit) Q R := h

theorem bind (hx : Triple P x Q R) (hf : ∀ a, Triple (Q a) (f a) S R) : Triple P (x >>= f) S R := by
  intro s hs
  have := hx s hs
  rw [bind_apply]
  cases hxs : x s with
  | ok a t =>
    rw [hxs] at this
    exact hf a t this
  | error e t =>
    rw [hxs] at this
    exact this

theorem bindFact {P' : σ → Prop} {φ : α → Prop} (hx : Triple P x (fun a s => φ a ∧ P' s) R)
    (hf : ∀ a, φ a → Triple P' (f a) S R) : Triple P (x >>= f) S R :=
  hx.bind fun a => fun s hs => hf a hs.1 s hs.2

theorem bindGet {g : σ → EStateM ε σ β} (h : ∀ s, P s → Triple (· = s) (g s) S R) :
    Triple P (MonadState.get >>= g) S R := fun s hs => h s hs s rfl

theorem ite {c : Prop} [Decidable c] (hx : c → Triple P x Q R) (hy : ¬ c → Triple P y Q R) :
    Triple P (if c then x else y) Q R := by
  split_ifs with hc
  · exact hx hc
  · exact hy hc

end Triple

/-- What the first program does when it does not stop, the second does as well. -/
def Below (x y : EStateM ε σ α) : Prop := ∀ s a t, x s = .ok a t → y s = .ok a t

namespace Below

variable {x y : EStateM ε σ α} {f g : α → EStateM ε σ β}

theorem refl (x : EStateM ε σ α) : Below x x := fun _ _ _ => id

theorem throw (e : ε) (y : EStateM ε σ α) : Below (throw e) y := fun _ _ _ h => by cases h

theorem bind (hx : Below x y) (hf : ∀ a, Below (f a) (g a)) : Below (x >>= f) (y >>= g) := by
  intro s b t h
  obtain ⟨a, s', hxs, hfs⟩ := bind_eq_ok.mp h
  exact (bind_of_ok (hx s a s' hxs)).trans (hf a s' b t hfs)

theorem ite {c : Prop} [Decidable c] {x' y' : EStateM ε σ α} (hx : Below x y) (hy : Below x' y') :
    Below (if c then x else x') (if c then y else y') := by
  split_ifs
  · exact hx
  · exact hy

end Below

end Exec
