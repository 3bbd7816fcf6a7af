import Mathlib.Data.Set.Insert

/-!
# The set of the keys in use

Items are stored, some of which have a key, and the keys in use are kept in a set beside them: a key
enters it with an item, and leaves it with an item.

* `Exact.remove_iff` : **a removal leaves the set exact only when no other item has the key.**
* `Sound` : the set is exact and no two items share a key; `Sound.insert` and `Sound.remove` keep
  it.
-/

namespace SeenKeys

open Set

variable {α κ : Type*} {key : α → Option κ} {items : Set α} {seen : Set κ} {x : α} {k : κ}

/-- The set holds the keys of the items and no others. -/
def Exact (key : α → Option κ) (items : Set α) (seen : Set κ) : Prop :=
  ∀ k, k ∈ seen ↔ ∃ x ∈ items, key x = some k

/-- No two items have the same key. -/
def Unique (key : α → Option κ) (items : Set α) : Prop :=
  ∀ k, ∀ x ∈ items, ∀ y ∈ items, key x = some k → key y = some k → x = y

theorem Exact.empty : Exact key ∅ ∅ := fun k => by simp

theorem Exact.insert (h : Exact key items seen) :
    Exact key (insert x items) ({k | key x = some k} ∪ seen) := by
  intro k
  rw [mem_union, mem_ofPred_eq, h k]
  constructor
  · rintro (hx | ⟨y, hy, hk⟩)
    · exact ⟨x, mem_insert x items, hx⟩
    · exact ⟨y, mem_insert_of_mem x hy, hk⟩
  · rintro ⟨y, rfl | hy, hk⟩
    · exact .inl hk
    · exact .inr ⟨y, hy, hk⟩

theorem Exact.remove (h : Exact key items seen) (hx : ∀ k', key x = some k' → k' = k)
    (hother : ∀ y ∈ items, key y = some k → y = x) : Exact key (items \ {x}) (seen \ {k}) := by
  intro k'
  rw [mem_sdiff, mem_singleton_iff, h k']
  constructor
  · rintro ⟨⟨y, hy, hk⟩, hne⟩
    refine ⟨y, ⟨hy, ?_⟩, hk⟩
    rintro rfl
    exact hne (hx k' hk)
  · rintro ⟨y, ⟨hy, hne⟩, hk⟩
    refine ⟨⟨y, hy, hk⟩, ?_⟩
    rintro rfl
    exact hne (hother y hy hk)

/-- **A removal leaves the set exact only when no other item has the key.** -/
theorem Exact.remove_iff (h : Exact key items seen) (hk : key x = some k) :
    Exact key (items \ {x}) (seen \ {k}) ↔ ∀ y ∈ items, key y = some k → y = x := by
  constructor
  · intro hexact y hy hyk
    by_contra hne
    exact ((hexact k).2 ⟨y, ⟨hy, hne⟩, hyk⟩).2 rfl
  · intro hother
    refine h.remove (fun k' hk' => ?_) hother
    rw [hk] at hk'
    exact (Option.some.inj hk').symm

/-- The set is exact and no two items share a key. -/
structure Sound (key : α → Option κ) (items : Set α) (seen : Set κ) : Prop where
  exact : Exact key items seen
  unique : Unique key items

namespace Sound

theorem empty : Sound key ∅ ∅ := ⟨.empty, fun _ _ hx => hx.elim⟩

theorem insert (h : Sound key items seen) (hnew : ∀ k, key x = some k → k ∉ seen) :
    Sound key (insert x items) ({k | key x = some k} ∪ seen) := by
  refine ⟨h.exact.insert, ?_⟩
  rintro k y (rfl | hy) z (rfl | hz) hyk hzk
  · rfl
  · exact absurd ((h.exact k).2 ⟨z, hz, hzk⟩) (hnew k hyk)
  · exact absurd ((h.exact k).2 ⟨y, hy, hyk⟩) (hnew k hzk)
  · exact h.unique k y hy z hz hyk hzk

theorem remove (h : Sound key items seen) (hx : x ∈ items)
    (hmark : key x = some k ∨ key x = none ∧ ∀ y ∈ items, key y ≠ some k) :
    Sound key (items \ {x}) (seen \ {k}) := by
  refine ⟨?_, fun k' y hy z hz => h.unique k' y hy.1 z hz.1⟩
  rcases hmark with hk | ⟨hnone, hno⟩
  · exact (h.exact.remove_iff hk).2 fun y hy hyk => h.unique k y hy x hx hyk hk
  · refine h.exact.remove (fun k' hk' => ?_) fun y hy hyk => absurd hyk (hno y hy)
    rw [hnone] at hk'
    cases hk'

end Sound

end SeenKeys
