import Mathlib.Data.Set.Basic

/-!
# Removing nodes with all that depends on them

A relation `R` on a type says which nodes depend on a node directly: `R a b` when `b` depends on
`a`. Inside a set `S` of present nodes, `prune R S C` is what is left of `S` when the nodes of `C`
that are in `S` are removed together with everything in `S` that is reached from them through `S`.

* `prune_prune` : two removals in a row are the removal of both; what the first one took does not
  matter to the second.
* `prune_self` : to remove a node, remove what depends on it directly and then the node.
-/

namespace Prune

open Relation

variable {α : Type*} {R : α → α → Prop} {S C D : Set α} {a b c : α}

/-- `b` is `a` or is reached from it by dependences inside `S`. -/
def Below (R : α → α → Prop) (S : Set α) (a b : α) : Prop :=
  ReflTransGen (fun x y => R x y ∧ y ∈ S) a b

/-- What is left of `S` when `C` and what depends on it are removed. -/
def prune (R : α → α → Prop) (S C : Set α) : Set α :=
  {b | b ∈ S ∧ ¬ ∃ c ∈ C, c ∈ S ∧ Below R S c b}

theorem mem_prune : b ∈ prune R S C ↔ b ∈ S ∧ ¬ ∃ c ∈ C, c ∈ S ∧ Below R S c b := Iff.rfl

theorem prune_subset : prune R S C ⊆ S := fun _ h => h.1

theorem Below.mono {S' : Set α} (h : Below R S a b) (hS : S ⊆ S') : Below R S' a b :=
  ReflTransGen.mono (fun _ _ hxy => ⟨hxy.1, hS hxy.2⟩) _ _ h

theorem Below.mem (h : Below R S a b) (ha : a ∈ S) : b ∈ S := by
  rcases ReflTransGen.cases_tail h with rfl | ⟨c, -, hc⟩
  · exact ha
  · exact hc.2

theorem Below.prune (h : Below R S a b) (hb : b ∈ prune R S C) (ha : a ∈ S) :
    a ∈ Prune.prune R S C ∧ Below R (Prune.prune R S C) a b := by
  induction h with
  | refl => exact ⟨hb, .refl⟩
  | tail hac hcb ih =>
    rename_i c b
    have hc : c ∈ Prune.prune R S C := by
      refine ⟨Below.mem hac ha, ?_⟩
      rintro ⟨d, hd, hdS, hdc⟩
      exact hb.2 ⟨d, hd, hdS, hdc.tail hcb⟩
    obtain ⟨ha', hpath⟩ := ih hc
    exact ⟨ha', hpath.tail ⟨hcb.1, hb⟩⟩

/-- **Two removals in a row are the removal of both.** -/
theorem prune_prune : prune R (prune R S C) D = prune R S (C ∪ D) := by
  ext b
  constructor
  · rintro ⟨hb, hD⟩
    refine ⟨hb.1, ?_⟩
    rintro ⟨c, hc | hc, hcS, hcb⟩
    · exact hb.2 ⟨c, hc, hcS, hcb⟩
    · obtain ⟨hc', hpath⟩ := hcb.prune hb hcS
      exact hD ⟨c, hc, hc', hpath⟩
  · rintro ⟨hb, hCD⟩
    refine ⟨⟨hb, fun ⟨c, hc, h⟩ => hCD ⟨c, .inl hc, h⟩⟩, ?_⟩
    rintro ⟨c, hc, hcS, hcb⟩
    exact hCD ⟨c, .inr hc, hcS.1, hcb.mono prune_subset⟩

theorem prune_congr (h : ∀ c ∈ S, c ∈ C ↔ c ∈ D) : prune R S C = prune R S D := by
  ext b
  refine and_congr_right fun _ => not_congr (exists_congr fun c => ?_)
  constructor
  · rintro ⟨hc, hcS, hcb⟩
    exact ⟨(h c hcS).1 hc, hcS, hcb⟩
  · rintro ⟨hc, hcS, hcb⟩
    exact ⟨(h c hcS).2 hc, hcS, hcb⟩

theorem prune_of_disjoint (h : ∀ c ∈ C, c ∉ S) : prune R S C = S := by
  ext b
  refine ⟨fun hb => hb.1, fun hb => ⟨hb, ?_⟩⟩
  rintro ⟨c, hc, hcS, -⟩
  exact h c hc hcS

/-- **To remove a node, remove what depends on it directly and then the node.** -/
theorem prune_self (ha : a ∈ S) : prune R S {a} = prune R S {b | R a b} \ {a} := by
  ext b
  constructor
  · rintro ⟨hb, h⟩
    refine ⟨⟨hb, ?_⟩, ?_⟩
    · rintro ⟨c, hac, hcS, hcb⟩
      exact h ⟨a, rfl, ha, ReflTransGen.head ⟨hac, hcS⟩ hcb⟩
    · rintro rfl
      exact h ⟨b, rfl, ha, .refl⟩
  · rintro ⟨⟨hb, h⟩, hne⟩
    refine ⟨hb, ?_⟩
    rintro ⟨_, rfl, -, hab⟩
    rcases ReflTransGen.cases_head hab with rfl | ⟨c, hac, hcb⟩
    · exact hne rfl
    · exact h ⟨c, hac.1, hac.2, hcb⟩

end Prune
