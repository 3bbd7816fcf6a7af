import Mathlib.Data.Set.Lattice

/-!
# Connected components of groups

Groups are sets that may overlap.  Their components are found by taking one group after the other,
and joining it with all parts that it hits.

* `IsComponents` : two elements lie in the same part exactly if a chain of groups connects them, and
  different parts are disjoint.
* `IsComponents.merge` : merging one more group keeps to it.
-/

namespace Components

open Relation Set

variable {α : Type*} {groups parts : Set (Set α)} {g : Set α} {a b c : α}

/-- Two elements lie in a common set. -/
def Together (groups : Set (Set α)) (a b : α) : Prop := ∃ g ∈ groups, a ∈ g ∧ b ∈ g

theorem Together.symm (h : Together groups a b) : Together groups b a := by
  obtain ⟨g, hg, ha, hb⟩ := h
  exact ⟨g, hg, hb, ha⟩

theorem Together.mono {groups' : Set (Set α)} (hsub : groups ⊆ groups')
    (h : Together groups a b) : Together groups' a b := by
  obtain ⟨g, hg, ha, hb⟩ := h
  exact ⟨g, hsub hg, ha, hb⟩

theorem connected_symm (h : TransGen (Together groups) a b) : TransGen (Together groups) b a := by
  induction h with
  | single h => exact .single h.symm
  | tail _ h ih => exact .head h.symm ih

theorem connected_insert (g : Set α) (h : TransGen (Together groups) a b) :
    TransGen (Together (insert g groups)) a b :=
  TransGen.mono (fun _ _ => .mono (subset_insert g groups)) _ _ h

/-- The parts are the classes of the elements that chains of groups connect. -/
structure IsComponents (groups parts : Set (Set α)) : Prop where
  together : ∀ a b, Together parts a b ↔ TransGen (Together groups) a b
  disjoint : ∀ p ∈ parts, ∀ q ∈ parts, ∀ a, a ∈ p → a ∈ q → p = q

/-- A group with all parts that it hits. -/
def join (g : Set α) (parts : Set (Set α)) : Set α :=
  {a | a ∈ g ∨ ∃ p ∈ parts, (p ∩ g).Nonempty ∧ a ∈ p}

/-- The parts after one more group. -/
def merge (g : Set α) (parts : Set (Set α)) : Set (Set α) :=
  {p | p = join g parts ∨ p ∈ parts ∧ ¬ (p ∩ g).Nonempty}

theorem IsComponents.empty : IsComponents (∅ : Set (Set α)) ∅ where
  together a b := by
    constructor
    · rintro ⟨p, hp, -⟩
      exact absurd hp (notMem_empty p)
    · intro h
      obtain ⟨c, ⟨p, hp, -⟩, -⟩ := TransGen.head'_iff.1 h
      exact absurd hp (notMem_empty p)
  disjoint p hp := absurd hp (notMem_empty p)

theorem Together.merge (h : Together parts a b) (g : Set α) : Together (merge g parts) a b := by
  obtain ⟨p, hp, ha, hb⟩ := h
  by_cases hit : (p ∩ g).Nonempty
  · exact ⟨join g parts, .inl rfl, .inr ⟨p, hp, hit, ha⟩, .inr ⟨p, hp, hit, hb⟩⟩
  · exact ⟨p, .inr ⟨hp, hit⟩, ha, hb⟩

theorem IsComponents.connected_of_join (h : IsComponents groups parts) (ha : a ∈ join g parts)
    (hc : c ∈ g) : TransGen (Together (insert g groups)) a c := by
  obtain ha | ⟨p, hp, ⟨b, hbp, hbg⟩, hap⟩ := ha
  · exact .single ⟨g, mem_insert g groups, ha, hc⟩
  · have hold := (h.together a b).1 ⟨p, hp, hap, hbp⟩
    exact (connected_insert g hold).tail ⟨g, mem_insert g groups, hbg, hc⟩

/-- **Merging one more group keeps to the components.** -/
theorem IsComponents.merge (h : IsComponents groups parts) (g : Set α) :
    IsComponents (insert g groups) (merge g parts) := by
  have hdisjoint : ∀ p ∈ Components.merge g parts, ∀ q ∈ Components.merge g parts,
      ∀ a, a ∈ p → a ∈ q → p = q := by
    -- a part that is not hit shares nothing with the new one
    have hnew : ∀ q ∈ parts, ¬ (q ∩ g).Nonempty → ∀ a ∈ join g parts, a ∉ q := by
      rintro q hq hmiss a (ha | ⟨p, hp, hit, ha⟩) haq
      · exact hmiss ⟨a, haq, ha⟩
      · obtain rfl := h.disjoint p hp q hq a ha haq
        exact hmiss hit
    rintro p (rfl | ⟨hp, hmissp⟩) q (rfl | ⟨hq, hmissq⟩) a hap haq
    · rfl
    · exact absurd haq (hnew q hq hmissq a hap)
    · exact absurd hap (hnew p hp hmissp a haq)
    · exact h.disjoint p hp q hq a hap haq
  refine ⟨fun a b => ⟨?_, fun hab => ?_⟩, hdisjoint⟩
  · rintro ⟨p, rfl | ⟨hp, hmiss⟩, ha, hb⟩
    · obtain ⟨c, hc⟩ : g.Nonempty := by
        obtain ha | ⟨p, -, ⟨c, -, hc⟩, -⟩ := ha
        · exact ⟨a, ha⟩
        · exact ⟨c, hc⟩
      exact (h.connected_of_join ha hc).trans (connected_symm (h.connected_of_join hb hc))
    · exact connected_insert g ((h.together a b).1 ⟨p, hp, ha, hb⟩)
  · have htrans : ∀ {a b c}, Together (Components.merge g parts) a b →
        Together (Components.merge g parts) b c → Together (Components.merge g parts) a c := by
      rintro a b c ⟨p, hp, ha, hb⟩ ⟨q, hq, hb', hc⟩
      obtain rfl := hdisjoint p hp q hq b hb hb'
      exact ⟨p, hp, ha, hc⟩
    have hstep : ∀ {a b}, Together (insert g groups) a b →
        Together (Components.merge g parts) a b := by
      rintro a b ⟨q, rfl | hq, ha, hb⟩
      · exact ⟨join q parts, .inl rfl, .inl ha, .inl hb⟩
      · exact ((h.together a b).2 (.single ⟨q, hq, ha, hb⟩)).merge g
    induction hab with
    | single hab => exact hstep hab
    | tail _ hbc ih => exact htrans ih (hstep hbc)

theorem empty_mem_merge : ∅ ∈ merge g parts ↔ g = ∅ ∨ ∅ ∈ parts := by
  have hmiss : ¬ ((∅ : Set α) ∩ g).Nonempty := by
    rintro ⟨a, ha, -⟩
    exact notMem_empty a ha
  constructor
  · rintro (hjoin | ⟨hp, -⟩)
    · refine .inl (eq_empty_iff_forall_notMem.2 fun a ha => ?_)
      exact eq_empty_iff_forall_notMem.1 hjoin.symm a (.inl ha)
    · exact .inr hp
  · rintro (rfl | hp)
    · refine .inl (eq_empty_iff_forall_notMem.2 ?_).symm
      rintro a (ha | ⟨p, -, ⟨c, -, hc⟩, -⟩)
      · exact ha
      · exact hc
    · exact .inr ⟨hp, hmiss⟩

end Components
