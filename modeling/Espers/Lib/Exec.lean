import Mathlib.Order.Defs.Unbundled
import Mathlib.Tactic.SplitIfs

/-!
# Imperative functions that can stop early

A function of the program that updates global state and can stop early is an `EStateM ε σ α`: it
turns a state into a result, or into an error *and the state it left behind*.  Nothing is rolled
back on an error, as in the source language.

* `bind_eq_ok`, `bind_eq_error` : inversion of a sequence of two commands.
* `Keeps R x` : every run of `x`, however it ends, leaves a state related by `R` to the one it
  started from.  Commands are composed by `Keeps.bind`.
* `Never P x` : no run of `x` ends with an error satisfying `P`.
* `attempt p x` : run `x` and go on; the errors satisfying `p` count as the answer `false`.

Checks without effects are `Except ε α`; `rejectIf c e` is the early exit `if (c) return e`.
-/

namespace Exec

variable {ε σ α β : Type}

instance instDecidableEqExcept [DecidableEq ε] [DecidableEq α] : DecidableEq (Except ε α)
  | .ok a, .ok b => decidable_of_iff (a = b) (by simp)
  | .error e, .error e' => decidable_of_iff (e = e') (by simp)
  | .ok _, .error _ => isFalse (by simp)
  | .error _, .ok _ => isFalse (by simp)

/-- Stop with `e` when `c` holds. -/
def rejectIf (c : Prop) [Decidable c] (e : ε) : Except ε Unit := if c then .error e else .ok ()

@[simp] theorem rejectIf_eq_ok {c : Prop} [Decidable c] {e : ε} {u : Unit} :
    rejectIf c e = .ok u ↔ ¬ c := by
  unfold rejectIf
  split_ifs with h <;> simp [h]

theorem rejectIf_of_not {c : Prop} [Decidable c] (h : ¬ c) (e : ε) : rejectIf c e = .ok () := by
  simp [h]

theorem except_bind_eq_ok {x : Except ε α} {f : α → Except ε β} {b : β} :
    (x >>= f) = .ok b ↔ ∃ a, x = .ok a ∧ f a = .ok b := by
  cases x with
  | ok a =>
    refine ⟨fun h => ⟨a, rfl, h⟩, ?_⟩
    rintro ⟨a', h, h'⟩
    cases h
    exact h'
  | error e => simp [bind, Except.bind]

variable {e : ε}

theorem except_bind_eq_error {x : Except ε α} {f : α → Except ε β} :
    (x >>= f) = .error e ↔ x = .error e ∨ ∃ a, x = .ok a ∧ f a = .error e := by
  cases x with
  | ok a =>
    refine ⟨fun h => .inr ⟨a, rfl, h⟩, ?_⟩
    rintro (h | ⟨a', h, h'⟩)
    · cases h
    · cases h
      exact h'
  | error e' => simp [bind, Except.bind]

variable {a : α}

theorem except_mapError_eq_ok {f : ε → ε} {x : Except ε α} : x.mapError f = .ok a ↔ x = .ok a := by
  cases x <;> simp [Except.mapError]

@[simp] theorem except_ok_bind (a : α) (f : α → Except ε β) : (Except.ok a >>= f) = f a := rfl

@[simp] theorem except_error_bind (e : ε) (f : α → Except ε β) :
    (Except.error e >>= f) = .error e := rfl

/-- The state a run ends in, however it ends. -/
def finalState : EStateM.Result ε σ α → σ
  | .ok _ s => s
  | .error _ s => s

@[simp] theorem finalState_ok (a : α) (s : σ) :
    finalState (.ok a s : EStateM.Result ε σ α) = s := rfl

@[simp] theorem finalState_error (e : ε) (s : σ) :
    finalState (.error e s : EStateM.Result ε σ α) = s := rfl

/-- The run returned a result. -/
def isOk : EStateM.Result ε σ α → Bool
  | .ok _ _ => true
  | .error _ _ => false

/-- What the caller sees of a run: its result or its error. -/
def answer : EStateM.Result ε σ α → Except ε α
  | .ok a _ => .ok a
  | .error e _ => .error e

@[simp] theorem answer_ok (a : α) (s : σ) : answer (.ok a s : EStateM.Result ε σ α) = .ok a := rfl

@[simp] theorem answer_error (e : ε) (s : σ) :
    answer (.error e s : EStateM.Result ε σ α) = .error e := rfl

/-- Run a computation without effects. -/
def lift : Except ε α → EStateM ε σ α
  | .ok a => pure a
  | .error e => throw e

/-- Run `x`; an error satisfying `p` is the answer `false`, and its state is kept. -/
def attempt (p : ε → Bool) (x : EStateM ε σ α) : EStateM ε σ Bool := fun s =>
  match x s with
  | .ok _ s' => .ok true s'
  | .error e s' => if p e then .ok false s' else .error e s'

/-- Run `x` and report its errors as `f` of them. -/
def mapError (f : ε → ε) (x : EStateM ε σ α) : EStateM ε σ α := fun s =>
  match x s with
  | .ok a s' => .ok a s'
  | .error e s' => .error (f e) s'

/-- Run `x` on a part of a larger state. -/
def focus {τ : Type} (part : τ → σ) (put : σ → τ → τ) (x : EStateM ε σ α) :
    EStateM ε τ α := fun t =>
  match x (part t) with
  | .ok a s => .ok a (put s t)
  | .error e s => .error e (put s t)

@[simp] theorem pure_apply (a : α) (s : σ) : (pure a : EStateM ε σ α) s = .ok a s := rfl

@[simp] theorem throw_apply (e : ε) (s : σ) : (throw e : EStateM ε σ α) s = .error e s := rfl

@[simp] theorem get_apply (s : σ) : (get : EStateM ε σ σ) s = .ok s s := rfl

@[simp] theorem set_apply (t s : σ) : (set t : EStateM ε σ PUnit) s = .ok ⟨⟩ t := rfl

@[simp] theorem modify_apply (f : σ → σ) (s : σ) : (modify f : EStateM ε σ PUnit) s =
    .ok ⟨⟩ (f s) :=
  rfl

@[simp] theorem lift_ok (a : α) (s : σ) : (lift (.ok a) : EStateM ε σ α) s = .ok a s := rfl

@[simp] theorem lift_error (e : ε) (s : σ) : (lift (.error e) : EStateM ε σ α) s = .error e s := rfl

theorem bind_apply (x : EStateM ε σ α) (f : α → EStateM ε σ β) (s : σ) :
    (x >>= f) s = match x s with
      | .ok a s' => f a s'
      | .error e s' => .error e s' := rfl

theorem get_bind_apply (f : σ → EStateM ε σ β) (s : σ) : (get >>= f) s = f s s := rfl

theorem modify_bind_apply (g : σ → σ) (f : PUnit → EStateM ε σ β) (s : σ) :
    (modify g >>= f) s = f ⟨⟩ (g s) := rfl

variable {x : EStateM ε σ α} {f : α → EStateM ε σ β}

theorem bind_of_ok {s t : σ} (h : x s = .ok a t) : (x >>= f) s = f a t := by
  rw [bind_apply, h]

theorem bind_of_error {s t : σ} (h : x s = .error e t) : (x >>= f) s = .error e t := by
  rw [bind_apply, h]

theorem finalState_bind_pure (x : EStateM ε σ α) (b : β) (s : σ) :
    finalState ((x >>= fun _ => pure b) s) = finalState (x s) := by
  rw [bind_apply]
  cases x s <;> rfl

variable {s s' : σ}

theorem bind_eq_ok {b : β} : (x >>= f) s = .ok b s' ↔ ∃ a t, x s = .ok a t ∧ f a t = .ok b s' := by
  rw [bind_apply]
  cases x s with
  | ok a t =>
    refine ⟨fun h => ⟨a, t, rfl, h⟩, ?_⟩
    rintro ⟨a', t', h, h'⟩
    cases h
    exact h'
  | error e t => simp

theorem bind_eq_error : (x >>= f) s = .error e s' ↔
      x s = .error e s' ∨ ∃ a t, x s = .ok a t ∧ f a t = .error e s' := by
  rw [bind_apply]
  cases x s with
  | ok a t =>
    refine ⟨fun h => .inr ⟨a, t, rfl, h⟩, ?_⟩
    rintro (h | ⟨a', t', h, h'⟩)
    · cases h
    · cases h
      exact h'
  | error e t => simp

theorem lift_eq_ok {x : Except ε α} :
    (lift x : EStateM ε σ α) s = .ok a s' ↔ x = .ok a ∧ s = s' := by
  cases x <;> simp

variable {p : ε → Bool}

theorem attempt_eq_true : attempt p x s = .ok true s' ↔ ∃ a, x s = .ok a s' := by
  unfold attempt
  cases x s with
  | ok a t => simp
  | error e t => cases h : p e <;> simp [h]

theorem attempt_eq_false : attempt p x s = .ok false s' ↔ ∃ e, x s = .error e s' ∧ p e = true := by
  unfold attempt
  cases x s with
  | ok a t => simp
  | error e t =>
    cases h : p e
    · simp only [h, ↓reduceIte, reduceCtorEq, false_iff, not_exists, not_and]
      intro e' he hp
      cases he
      rw [h] at hp
      cases hp
    · simp only [h]
      refine ⟨fun heq => ⟨e, by cases heq; rfl, h⟩, ?_⟩
      rintro ⟨e', he, -⟩
      cases he
      rfl

theorem attempt_eq_error : attempt p x s = .error e s' ↔ x s = .error e s' ∧ p e = false := by
  unfold attempt
  cases x s with
  | ok a t => simp
  | error e' t =>
    cases h : p e'
    · simp only [h]
      constructor
      · intro heq
        cases heq
        exact ⟨rfl, h⟩
      · rintro ⟨heq, -⟩
        cases heq
        rfl
    · simp only [h, ↓reduceIte, reduceCtorEq, false_iff, not_and]
      intro heq
      cases heq
      simp [h]

theorem mapError_eq_ok {f : ε → ε} : mapError f x s = .ok a s' ↔ x s = .ok a s' := by
  unfold mapError
  cases x s <;> simp

theorem mapError_eq_error {f : ε → ε} :
    mapError f x s = .error e s' ↔ ∃ e', x s = .error e' s' ∧ f e' = e := by
  unfold mapError
  cases x s with
  | ok a t => simp
  | error e' t =>
    constructor
    · intro h
      cases h
      exact ⟨e', rfl, rfl⟩
    · rintro ⟨e'', h, rfl⟩
      cases h
      rfl

theorem focus_eq_ok {τ : Type} {part : τ → σ} {put : σ → τ → τ} {t t' : τ} :
    focus part put x t = .ok a t' ↔ ∃ s, x (part t) = .ok a s ∧ t' = put s t := by
  unfold focus
  cases x (part t) with
  | ok b s =>
    constructor
    · intro h
      cases h
      exact ⟨s, rfl, rfl⟩
    · rintro ⟨s', h, rfl⟩
      cases h
      rfl
  | error e s => simp

theorem focus_eq_error {τ : Type} {part : τ → σ} {put : σ → τ → τ} {t t' : τ} :
    focus part put x t = .error e t' ↔ ∃ s, x (part t) = .error e s ∧ t' = put s t := by
  unfold focus
  cases x (part t) with
  | ok b s => simp
  | error e' s =>
    constructor
    · intro h
      cases h
      exact ⟨s, rfl, rfl⟩
    · rintro ⟨s', h, rfl⟩
      cases h
      rfl

/-! ### What every run preserves -/

/-- However a run of `x` ends, its final state is related by `R` to its initial state. -/
def Keeps (R : σ → σ → Prop) (x : EStateM ε σ α) : Prop := ∀ s, R s (finalState (x s))

namespace Keeps

variable {R : σ → σ → Prop} {x : EStateM ε σ α} {f : α → EStateM ε σ β}

theorem ok (h : Keeps R x) {s s' : σ} {a : α} (hx : x s = .ok a s') : R s s' := by
  simpa [hx] using h s

theorem error (h : Keeps R x) {s s' : σ} {e : ε} (hx : x s = .error e s') : R s s' := by
  simpa [hx] using h s

theorem mono {R' : σ → σ → Prop} (h : Keeps R x) (hR : ∀ s t, R s t → R' s t) : Keeps R' x :=
  fun s => hR _ _ (h s)

theorem modify {g : σ → σ} (h : ∀ s, R s (g s)) : Keeps R (modify g : EStateM ε σ PUnit) := h

theorem ite {c : Prop} [Decidable c] {y : EStateM ε σ α} (hx : Keeps R x) (hy : Keeps R y) :
    Keeps R (if c then x else y) := by
  split_ifs
  · exact hx
  · exact hy

theorem attempt (p : ε → Bool) (hx : Keeps R x) : Keeps R (attempt p x) := by
  intro s
  have h := hx s
  unfold Exec.attempt
  cases hxs : x s with
  | ok a t => rw [hxs] at h; exact h
  | error e t =>
    rw [hxs] at h
    simp only
    split_ifs <;> exact h

theorem mapError (g : ε → ε) (hx : Keeps R x) : Keeps R (mapError g x) := by
  intro s
  have h := hx s
  unfold Exec.mapError
  cases hxs : x s <;> rw [hxs] at h <;> exact h

variable [IsPreorder σ R]

theorem pure (a : α) : Keeps R (pure a : EStateM ε σ α) := fun s => Std.Refl.refl s

theorem throw (e : ε) : Keeps R (throw e : EStateM ε σ α) := fun s => Std.Refl.refl s

theorem get : Keeps R (get : EStateM ε σ σ) := fun s => Std.Refl.refl s

theorem lift (x : Except ε α) : Keeps R (lift x : EStateM ε σ α) := by
  cases x with
  | ok a => exact pure a
  | error e => exact throw e

theorem bind (hx : Keeps R x) (hf : ∀ a, Keeps R (f a)) : Keeps R (x >>= f) := by
  intro s
  have h := hx s
  rw [bind_apply]
  cases hxs : x s with
  | ok a t =>
    rw [hxs] at h
    exact IsTrans.trans _ _ _ h (hf a t)
  | error e t =>
    rw [hxs] at h
    exact h

end Keeps

/-! ### Which errors cannot occur -/

/-- No run of `x` ends with an error that satisfies `P`. -/
def Never (P : ε → Prop) (x : EStateM ε σ α) : Prop := ∀ s e s', x s = .error e s' → ¬ P e

namespace Never

variable {P : ε → Prop} {x : EStateM ε σ α} {f : α → EStateM ε σ β}

theorem of_ok (h : ∀ s, ∃ a s', x s = .ok a s') : Never P x := by
  intro s e s' hx
  obtain ⟨a, t, ht⟩ := h s
  rw [ht] at hx
  cases hx

theorem pure (a : α) : Never P (pure a : EStateM ε σ α) := of_ok fun s => ⟨a, s, rfl⟩

theorem get : Never P (get : EStateM ε σ σ) := of_ok fun s => ⟨s, s, rfl⟩

theorem set (t : σ) : Never P (set t : EStateM ε σ PUnit) := of_ok fun _ => ⟨⟨⟩, t, rfl⟩

theorem modify (g : σ → σ) : Never P (modify g : EStateM ε σ PUnit) := of_ok fun s => ⟨⟨⟩, g s, rfl⟩

theorem throw {e : ε} (h : ¬ P e) : Never P (throw e : EStateM ε σ α) := by
  intro s e' s' hx
  cases hx
  exact h

theorem lift {y : Except ε α} (h : ∀ e, y = .error e → ¬ P e) :
    Never P (lift y : EStateM ε σ α) := by
  cases y with
  | ok a => exact pure a
  | error e => exact throw (h e rfl)

theorem bind (hx : Never P x) (hf : ∀ a, Never P (f a)) : Never P (x >>= f) := by
  intro s e s' h
  rcases bind_eq_error.1 h with h | ⟨a, t, -, h⟩
  · exact hx s e s' h
  · exact hf a t e s' h

theorem ite {c : Prop} [Decidable c] {y : EStateM ε σ α} (hx : Never P x) (hy : Never P y) :
    Never P (if c then x else y) := by
  split_ifs
  · exact hx
  · exact hy

theorem attempt (p : ε → Bool) : Never (fun e => p e = true) (attempt p x) := by
  intro s e s' h
  unfold Exec.attempt at h
  cases hx : x s with
  | ok a t => rw [hx] at h; cases h
  | error e' t =>
    rw [hx] at h
    simp only at h
    split_ifs at h with hp
    cases h
    exact hp

end Never

theorem foldlM_error {P : ε → Prop} {f : β → α → Except ε β} (hf : ∀ b a e, f b a = .error e → P e)
    {l : List α} {b : β} (h : l.foldlM f b = .error e) : P e := by
  induction l generalizing b with
  | nil => cases h
  | cons a l ih =>
    rw [List.foldlM_cons] at h
    cases hb : f b a with
    | ok b' => rw [hb] at h; exact ih h
    | error e' =>
      rw [hb] at h
      cases h
      exact hf b a _ hb

theorem foldlM_keeps {P : β → Prop} {f : β → α → Except ε β}
    (hf : ∀ b a b', P b → f b a = .ok b' → P b') {l : List α} {b b' : β} (hb : P b)
    (h : l.foldlM f b = .ok b') : P b' := by
  induction l generalizing b with
  | nil =>
    cases h
    exact hb
  | cons a l ih =>
    obtain ⟨b1, h1, h⟩ := except_bind_eq_ok.1 h
    exact ih (hf b a b1 hb h1) h

end Exec
