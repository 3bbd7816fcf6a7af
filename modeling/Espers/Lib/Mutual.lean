import Mathlib.Data.Int.Notation
import Mathlib.Data.Nat.Notation
import Mathlib.Logic.Function.Basic
import Mathlib.Tactic.SplitIfs
import Std.Data.TreeMap.Lemmas

/-!
# Partial functions that are inverse to each other

Two tables that point into each other, such as a table of places and the list of what is placed, are
partial functions with `f a = some b` exactly when `g b = some a`.

* `Inverse.insert`, `Inverse.erase`, `Inverse.swap` : a pair is added, a pair goes, two pairs change
  partners.
* `entry l` : a list as a partial function of integers.
* `lookup_insert`, `lookup_erase`, `lookup_modify` : the partial function of a map.
-/

namespace Mutual

open Function Int Option

variable {α β : Type*}

/-- The partial functions are inverse to each other. -/
def Inverse (f : α → Option β) (g : β → Option α) : Prop := ∀ a b, f a = some b ↔ g b = some a

namespace Inverse

variable {f : α → Option β} {g : β → Option α} {a a' : α} {b b' : β}

theorem symm (h : Inverse f g) : Inverse g f := fun b a => (h a b).symm

theorem left (h : Inverse f g) (hab : f a = some b) : g b = some a := (h a b).mp hab

theorem right (h : Inverse f g) (hba : g b = some a) : f a = some b := (h a b).mpr hba

theorem injective (h : Inverse f g) (ha : f a = some b) (ha' : f a' = some b) : a = a' := by
  have := (h.left ha).symm.trans (h.left ha')
  injection this

variable [DecidableEq α] [DecidableEq β]

/-- A new pair. -/
theorem insert (h : Inverse f g) (ha : f a = none) (hb : g b = none) :
    Inverse (update f a (some b)) (update g b (some a)) := by
  intro x y
  by_cases hx : x = a
  · subst hx
    by_cases hy : y = b
    · subst hy
      simp
    · rw [update_self, update_of_ne hy]
      refine ⟨fun heq => absurd (some.inj heq).symm hy, fun hg => ?_⟩
      rw [h.right hg] at ha
      cases ha
  · rw [update_of_ne hx]
    by_cases hy : y = b
    · subst hy
      rw [update_self]
      refine ⟨fun hf => ?_, fun heq => absurd (some.inj heq).symm hx⟩
      rw [h.left hf] at hb
      cases hb
    · rw [update_of_ne hy]
      exact h x y

/-- A pair goes. -/
theorem erase (h : Inverse f g) (hab : f a = some b) :
    Inverse (update f a none) (update g b none) := by
  intro x y
  by_cases hx : x = a
  · subst hx
    rw [update_self]
    refine ⟨(nomatch ·), fun hg => ?_⟩
    by_cases hy : y = b
    · subst hy
      rw [update_self] at hg
      cases hg
    · rw [update_of_ne hy] at hg
      exact absurd (h.symm.injective hg (h.left hab)) hy
  · rw [update_of_ne hx]
    by_cases hy : y = b
    · subst hy
      rw [update_self]
      exact ⟨fun hf => absurd (h.injective hf hab) hx, (nomatch ·)⟩
    · rw [update_of_ne hy]
      exact h x y

/-- Two pairs change partners. -/
theorem swap (h : Inverse f g) (hab : f a = some b) (hab' : f a' = some b') (hne : a ≠ a') :
    Inverse (update (update f a (some b')) a' (some b))
      (update (update g b (some a')) b' (some a)) := by
  have hneb : b ≠ b' := by
    rintro rfl
    exact hne (h.injective hab hab')
  -- both pairs go, and come back with the other partner
  have herased := (h.erase hab).erase (a := a') (b := b')
    (by rw [update_of_ne hne.symm, hab'])
  have hfirst := herased.insert (a := a) (b := b')
    (by rw [update_of_ne hne, update_self]) (by rw [update_self])
  have hsecond := hfirst.insert (a := a') (b := b)
    (by rw [update_of_ne hne.symm, update_self])
    (by rw [update_of_ne hneb, update_of_ne hneb, update_self])
  have hf : update (update f a (some b')) a' (some b) =
      update (update (update (update f a none) a' none)
      a (some b')) a'
        (some b) := by
    funext x
    simp only [update_apply]
    split_ifs <;> rfl
  have hg : update (update g b (some a')) b' (some a) =
      update (update (update (update g b none) b' none)
      b' (some a)) b
        (some a') := by
    funext y
    simp only [update_apply]
    split_ifs with h1 h2
    · exact absurd (h2.symm.trans h1) hneb
    all_goals rfl
  rw [hf, hg]
  exact hsecond

end Inverse

section Map

variable {γ : Type*} {g : α → Option β} {k : α} {x y : β}

theorem map_update [DecidableEq α] (F : β → γ) (o : Option β) :
    (fun n => (update g k o n).map F) = update (fun n => (g n).map F) k
    (o.map F) := by
  funext n
  rw [update_apply, update_apply]
  split_ifs <;> rfl

theorem map_update_same [DecidableEq α] {F : β → γ} (h : g k = some x) (hF : F y = F x) :
    (fun n => (update g k (some y) n).map F) = fun n => (g n).map F := by
  have hview : (some y).map F = (fun n => (g n).map F) k := by
    show some (F y) = (g k).map F
    rw [h, hF]
    rfl
  rw [map_update, hview, update_eq_self]

end Map

/-! ### Lists -/

/-- A list as a partial function of integers. -/
def entry (l : List α) (z : ℤ) : Option α := if 0 ≤ z then l[z.toNat]? else none

variable {l : List α} {a : α} {i : ℕ}

@[simp] theorem entry_natCast (l : List α) (i : ℕ) : entry l i = l[i]? := by
  simp [entry]

theorem entry_eq_some {z : ℤ} : entry l z = some a ↔ ∃ i : ℕ, z = i ∧ l[i]? = some a := by
  unfold entry
  split_ifs with hz
  · obtain ⟨i, rfl⟩ := eq_ofNat_of_zero_le hz
    refine ⟨fun h => ⟨i, rfl, h⟩, ?_⟩
    rintro ⟨j, hij, hj⟩
    rwa [ofNat_inj.mp hij]
  · refine ⟨(nomatch ·), ?_⟩
    rintro ⟨i, rfl, -⟩
    exact absurd (natCast_nonneg i) hz

theorem entry_set (h : i < l.length) (a : α) : entry (l.set i a) = update (entry l) i (some a) := by
  funext z
  rw [update_apply]
  split_ifs with hz
  · rw [hz, entry_natCast, List.getElem?_set_self h]
  · unfold entry
    split_ifs with hpos
    · rw [List.getElem?_set_ne]
      omega
    · rfl

theorem entry_concat (l : List α) (a : α) :
    entry (l ++ [a]) = update (entry l) l.length (some a) := by
  funext z
  rw [update_apply]
  split_ifs with hz
  · rw [hz, entry_natCast, List.getElem?_concat_length]
  · unfold entry
    split_ifs with hpos
    · rcases Nat.lt_trichotomy z.toNat l.length with hlt | heq | hgt
      · rw [List.getElem?_append_left hlt]
      · omega
      · rw [List.getElem?_eq_none (by simp; omega), List.getElem?_eq_none (by omega)]
    · rfl

theorem entry_dropLast : entry l.dropLast = update (entry l) ((l.length - 1 : ℕ) : ℤ) none := by
  funext z
  rw [update_apply]
  split_ifs with hz
  · rw [hz, entry_natCast, List.getElem?_eq_none (by simp)]
  · unfold entry
    split_ifs
    · rw [List.getElem?_dropLast]
      split_ifs with hlt
      · rfl
      · rw [List.getElem?_eq_none (by omega)]
    · rfl

/-! ### Maps -/

section Maps

variable {κ ν : Type} [Ord κ] [Std.TransOrd κ] [Std.LawfulEqOrd κ] [DecidableEq κ]
  {m : Std.TreeMap κ ν} {k : κ}

theorem lookup_insert (v : ν) :
    (fun a => (m.insert k v)[a]?) = update (fun a => m[a]?) k (some v) := by
  funext a
  rw [Std.TreeMap.getElem?_insert, update_apply]
  exact if_congr (Std.compare_eq_iff_eq.trans eq_comm) rfl rfl

theorem lookup_erase : (fun a => (m.erase k)[a]?) = update (fun a => m[a]?) k none := by
  funext a
  rw [Std.TreeMap.getElem?_erase, update_apply]
  exact if_congr (Std.compare_eq_iff_eq.trans eq_comm) rfl rfl

theorem lookup_modify (f : ν → ν) :
    (fun a => (m.modify k f)[a]?) = update (fun a => m[a]?) k (m[k]?.map f) := by
  funext a
  rw [Std.TreeMap.getElem?_modify, update_apply]
  by_cases h : a = k
  · subst h
    simp
  · rw [if_neg (by simpa [Std.compare_eq_iff_eq] using fun heq => h heq.symm), if_neg h]

end Maps

end Mutual
