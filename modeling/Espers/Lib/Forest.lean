import Mathlib.Logic.Relation
import Mathlib.Data.List.Nodup

/-!
# Forests given by parent pointers

A forest on a type `α` is given by a partial function `parent : α → Option α`; a *height* grows by
one along every edge (`Graded`).

* `Anc parent b a` : `a` is `b` or an ancestor of it.  Along one branch a height determines the
  ancestor (`Anc.eq_of_height`), and two ancestors are comparable (`Anc.of_height_le`).
* `walk parent k a` : the ancestor `k` steps up from `a` (`walk_eq_some`).
* `IsMeet parent f a b` : `f` is the last common ancestor of `a` and `b`; moving the higher of two
  nodes one step up keeps it (`IsMeet.of_step_right`, `IsMeet.of_step_left`).
* `Down parent a l f`, `Up parent f l a` : `l` lists the nodes from `a` down to `f` (`f` excluded),
  or from `f` up to `a`.
-/

namespace Forest

open Relation List Option

variable {α : Type*}

/-- `height` grows by one along every edge. -/
def Graded (parent : α → Option α) (height : α → ℕ) : Prop :=
  ∀ ⦃a b⦄, parent a = some b → height a = height b + 1

/-- `a` is `b` or an ancestor of `b`. -/
def Anc (parent : α → Option α) (b a : α) : Prop :=
  ReflTransGen (fun x y => parent x = some y) b a

/-- The ancestor `k` steps up. -/
def walk (parent : α → Option α) : ℕ → α → Option α
  | 0, a => some a
  | k + 1, a => (parent a).bind (walk parent k)

variable {parent : α → Option α} {height : α → ℕ}

namespace Anc

theorem refl (a : α) : Anc parent a a := ReflTransGen.refl

theorem trans {a b c : α} (h : Anc parent a b) (h' : Anc parent b c) : Anc parent a c :=
  ReflTransGen.trans h h'

theorem of_parent {a b : α} (h : parent a = some b) : Anc parent a b :=
  ReflTransGen.single h

theorem head {a b c : α} (h : parent a = some b) (h' : Anc parent b c) : Anc parent a c :=
  (of_parent h).trans h'

theorem cases {a c : α} (h : Anc parent a c) : a = c ∨ ∃ b, parent a = some b ∧ Anc parent b c :=
  ReflTransGen.cases_head h

theorem exists_child {a c : α} (h : Anc parent a c) (hne : a ≠ c) :
    ∃ b, Anc parent a b ∧ parent b = some c := by
  rcases ReflTransGen.cases_tail h with rfl | ⟨b, hb, hc⟩
  · exact absurd rfl hne
  · exact ⟨b, hb, hc⟩

theorem of_ne {a b c : α} (h : Anc parent a c) (hne : a ≠ c) (hb : parent a = some b) :
    Anc parent b c := by
  rcases h.cases with rfl | ⟨b', hb', h'⟩
  · exact absurd rfl hne
  · rw [hb] at hb'
    cases hb'
    exact h'

theorem height_le (hg : Graded parent height) {a c : α} (h : Anc parent a c) :
    height c ≤ height a := by
  induction h with
  | refl => exact Nat.le_refl _
  | tail _ hst ih => have := hg hst; omega

theorem eq_of_height_le (hg : Graded parent height) {a c : α} (h : Anc parent a c)
    (hh : height a ≤ height c) : a = c := by
  rcases h.cases with rfl | ⟨b, hb, h'⟩
  · rfl
  · have := hg hb
    have := h'.height_le hg
    omega

theorem of_height_le (hg : Graded parent height) {a c c' : α} (h : Anc parent a c)
    (h' : Anc parent a c') (hh : height c' ≤ height c) : Anc parent c c' := by
  induction h using ReflTransGen.head_induction_on with
  | refl => exact h'
  | head hst hrest ih =>
    refine ih (h'.of_ne ?_ hst)
    rintro rfl
    have := hg hst
    have := height_le hg hrest
    omega

theorem eq_of_height (hg : Graded parent height) {a c c' : α} (h : Anc parent a c)
    (h' : Anc parent a c') (hh : height c = height c') : c = c' :=
  (h.of_height_le hg h' (by omega)).eq_of_height_le hg (by omega)

end Anc

variable {a c : α} {k : ℕ}

theorem anc_of_walk (h : walk parent k a = some c) : Anc parent a c := by
  induction k generalizing a with
  | zero => cases h; exact Anc.refl _
  | succ k ih =>
    simp only [walk, bind_eq_some_iff] at h
    obtain ⟨b, hb, hc⟩ := h
    exact Anc.head hb (ih hc)

theorem height_of_walk (hg : Graded parent height)
    (h : walk parent k a = some c) : height a = height c + k := by
  induction k generalizing a with
  | zero => cases h; rfl
  | succ k ih =>
    simp only [walk, bind_eq_some_iff] at h
    obtain ⟨b, hb, hc⟩ := h
    have := hg hb
    have := ih hc
    omega

theorem walk_of_anc (hg : Graded parent height) (h : Anc parent a c)
    (hh : height a = height c + k) : walk parent k a = some c := by
  induction k generalizing a with
  | zero => rw [h.eq_of_height_le hg (by omega)]; rfl
  | succ k ih =>
    rcases h.cases with rfl | ⟨b, hb, h'⟩
    · omega
    · have := hg hb
      simp only [walk, hb]
      exact ih h' (by omega)

/-- **`walk` finds exactly the ancestor `k` steps up.** -/
theorem walk_eq_some (hg : Graded parent height) :
    walk parent k a = some c ↔ Anc parent a c ∧ height a = height c + k :=
  ⟨fun h => ⟨anc_of_walk h, height_of_walk hg h⟩, fun h => walk_of_anc hg h.1 h.2⟩

theorem exists_walk (hg : Graded parent height) {P : α → Prop}
    (hp : ∀ a, P a → 0 < height a → ∃ b, parent a = some b ∧ P b) {a : α} (ha : P a)
    (hk : k ≤ height a) : ∃ c, walk parent k a = some c ∧ P c := by
  induction k generalizing a with
  | zero => exact ⟨a, rfl, ha⟩
  | succ k ih =>
    obtain ⟨b, hb, hPb⟩ := hp a ha (by omega)
    have := hg hb
    obtain ⟨c, hc, hPc⟩ := ih hPb (by omega)
    exact ⟨c, by simp [walk, hb, hc], hPc⟩

/-! ### Last common ancestors -/

/-- `f` is the last common ancestor of `a` and `b`. -/
structure IsMeet (parent : α → Option α) (f a b : α) : Prop where
  left : Anc parent a f
  right : Anc parent b f
  last : ∀ c, Anc parent a c → Anc parent b c → Anc parent f c

theorem IsMeet.refl (a : α) : IsMeet parent a a a := ⟨Anc.refl a, Anc.refl a, fun _ h _ => h⟩

theorem IsMeet.of_step_right (hg : Graded parent height) {f a b b' : α} (hb : parent b = some b')
    (hlt : height a < height b) (h : IsMeet parent f a b') : IsMeet parent f a b := by
  refine ⟨h.left, Anc.head hb h.right, fun c hac hbc => h.last c hac (hbc.of_ne ?_ hb)⟩
  rintro rfl
  have := hac.height_le hg
  omega

theorem IsMeet.of_step_left (hg : Graded parent height) {f a a' b : α} (ha : parent a = some a')
    (hle : height b ≤ height a) (hne : a ≠ b) (h : IsMeet parent f a' b) :
    IsMeet parent f a b := by
  refine ⟨Anc.head ha h.left, h.right, fun c hac hbc => h.last c (hac.of_ne ?_ ha) hbc⟩
  rintro rfl
  exact hne (hbc.eq_of_height_le hg hle).symm

/-! ### Listing a branch -/

/-- `l` lists the nodes from `a` down to `f`, `f` excluded. -/
inductive Down (parent : α → Option α) : α → List α → α → Prop
  | nil (f : α) : Down parent f [] f
  | cons {a b f : α} {l : List α} : parent a = some b → Down parent b l f → Down parent a (a :: l) f

/-- `l` lists the nodes from `f` up to `a`, `f` excluded. -/
inductive Up (parent : α → Option α) : α → List α → α → Prop
  | nil (f : α) : Up parent f [] f
  | cons {f x a : α} {l : List α} : parent x = some f → Up parent x l a → Up parent f (x :: l) a

variable {l : List α}

theorem Up.snoc {f x a : α} (h : Up parent f l x) (ha : parent a = some x) :
    Up parent f (l ++ [a]) a := by
  induction h with
  | nil => exact .cons ha (.nil a)
  | cons hx _ ih => exact .cons hx (ih ha)

theorem Down.reverse {a f : α} (h : Down parent a l f) : Up parent f l.reverse a := by
  induction h with
  | nil => exact .nil _
  | cons ha _ ih => simpa using ih.snoc ha

theorem Down.anc {a f : α} (h : Down parent a l f) : Anc parent a f := by
  induction h with
  | nil => exact Anc.refl _
  | cons ha _ ih => exact Anc.head ha ih

theorem Up.anc {a f : α} (h : Up parent f l a) : Anc parent a f := by
  induction h with
  | nil => exact Anc.refl _
  | cons hx _ ih => exact ih.trans (Anc.of_parent hx)

theorem Up.last {f a y : α} (h : Up parent f (l ++ [y]) a) : y = a ∧ ∃ c, parent a = some c := by
  induction l generalizing f with
  | nil =>
    cases h with
    | cons hx h => cases h; exact ⟨rfl, f, hx⟩
  | cons x l ih =>
    cases h with
    | cons _ h => exact ih h

theorem Up.eq_of_nil {f a : α} (h : Up parent f [] a) : f = a := by
  cases h
  rfl

theorem Up.append {f x a : α} {l l' : List α} (h : Up parent f l x) (h' : Up parent x l' a) :
    Up parent f (l ++ l') a := by
  induction h with
  | nil => exact h'
  | cons hx _ ih => exact .cons hx (ih h')

theorem Up.anc_of_mem {f a x : α} (h : Up parent f l a) (hx : x ∈ l) :
    Anc parent a x ∧ ∃ c, parent x = some c := by
  induction h with
  | nil => cases hx
  | cons hp h ih =>
    rcases mem_cons.1 hx with rfl | hx
    · exact ⟨h.anc, _, hp⟩
    · exact ih hx

theorem Down.length (hg : Graded parent height) {a f : α} (h : Down parent a l f) :
    height a = height f + l.length := by
  induction h with
  | nil => rfl
  | cons ha _ ih => have := hg ha; simp only [length_cons]; omega

/-- The nodes listed are those on the branch of `a` above `f`. -/
theorem Down.mem_iff (hg : Graded parent height) {a f : α} (h : Down parent a l f)
    {x : α} : x ∈ l ↔ Anc parent a x ∧ height f < height x := by
  induction h with
  | nil f =>
    simp only [not_mem_nil, false_iff, not_and]
    intro h
    have := h.height_le hg
    omega
  | @cons a b f l ha hl ih =>
    have hab := hg ha
    have hlen := hl.anc.height_le hg
    rw [mem_cons, ih]
    constructor
    · rintro (rfl | ⟨hx, hlt⟩)
      · exact ⟨Anc.refl x, by omega⟩
      · exact ⟨Anc.head ha hx, hlt⟩
    · rintro ⟨hx, hlt⟩
      rcases eq_or_ne a x with rfl | hne
      · exact .inl rfl
      · exact .inr ⟨hx.of_ne hne ha, hlt⟩

/-- `parent'` has every edge of `parent`. -/
def Grows (parent parent' : α → Option α) : Prop := ∀ ⦃a b⦄, parent a = some b → parent' a = some b

theorem Anc.mono {parent' : α → Option α} (hg : Grows parent parent')
    (h : Anc parent a c) : Anc parent' a c :=
  ReflTransGen.mono (fun _ _ h => hg h) _ _ h

theorem Anc.of_mono {parent' : α → Option α} {P : α → Prop}
    (hP : ∀ a, P a → parent' a = parent a) (hcl : ∀ a b, P a → parent a = some b → P b)
    (ha : P a) (h : Anc parent' a c) : Anc parent a c := by
  induction h using ReflTransGen.head_induction_on with
  | refl => exact Anc.refl _
  | head hst _ ih =>
    rw [hP _ ha] at hst
    exact Anc.head hst (ih (hcl _ _ ha hst))

end Forest
