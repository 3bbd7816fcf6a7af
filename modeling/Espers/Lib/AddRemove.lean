import Mathlib.Data.List.Nodup
import Mathlib.Data.List.Infix

/-!
# Lists kept by additions and removals

A set kept as a list receives a log of requests, each to add or to remove one value.

* `Listed init log a` : what the log says about `a`: it was there or added, and not removed since.
* `listed_snoc` : the last request decides about its own value and about no other.
* `Tracks.snoc` : a list that agrees with the log agrees after a request is served as a set serves
  it.
-/

namespace AddRemove

open List

variable {α : Type*}

/-- A request to add (`add = true`) or to remove a value. -/
structure Request (α : Type*) where
  val : α
  add : Bool
  deriving DecidableEq, Repr

/-- `a` was added by a request of the log, or is one of the initial values, and no later request
removes it. -/
def Listed (init : List α) (log : List (Request α)) (a : α) : Prop :=
  (∃ before after, log = before ++ ⟨a, true⟩ :: after ∧ ⟨a, false⟩ ∉ after) ∨
    a ∈ init ∧ ⟨a, false⟩ ∉ log

/-- The list holds, each once, the values that the log says are there. -/
structure Tracks (init : List α) (log : List (Request α)) (l : List α) : Prop where
  nodup : l.Nodup
  mem : ∀ a, a ∈ l ↔ Listed init log a

/-- One request served on a list as a set serves it. -/
structure Serves (l : List α) (r : Request α) (l' : List α) : Prop where
  nodup : l'.Nodup
  self : r.val ∈ l' ↔ r.add = true
  other : ∀ a, a ≠ r.val → (a ∈ l' ↔ a ∈ l)

variable {init l l' : List α} {log : List (Request α)} {r : Request α} {a : α}

@[simp] theorem listed_nil : Listed init [] a ↔ a ∈ init := by
  simp [Listed]

theorem listed_snoc_add : Listed init (log ++ [⟨a, true⟩]) a :=
  .inl ⟨log, [], rfl, not_mem_nil⟩

theorem snoc_split {s : Request α} {before after : List (Request α)}
    (h : log ++ [r] = before ++ s :: after) :
    s = r ∧ after = [] ∨ ∃ after', after = after' ++ [r] ∧ log = before ++ s :: after' := by
  rcases eq_nil_or_concat after with rfl | ⟨after', t, rfl⟩
  · obtain ⟨-, hr⟩ := append_inj' h rfl
    exact .inl ⟨(singleton_inj.1 hr).symm, rfl⟩
  · rw [concat_eq_append, ← cons_append, ← append_assoc] at h
    obtain ⟨hlog, hr⟩ := append_inj' h rfl
    obtain rfl := singleton_inj.1 hr
    exact .inr ⟨after', concat_eq_append, hlog⟩

theorem not_listed_snoc_remove : ¬ Listed init (log ++ [⟨a, false⟩]) a := by
  rintro (⟨before, after, hlog, hafter⟩ | ⟨-, hlog⟩)
  · -- the removal stands behind the addition
    rcases snoc_split hlog with ⟨h, -⟩ | ⟨after', rfl, -⟩
    · simp at h
    · exact hafter (by simp)
  · exact hlog (by simp)

theorem listed_snoc_of_ne (h : a ≠ r.val) : Listed init (log ++ [r]) a ↔ Listed init log a := by
  have hne : ∀ b, (⟨a, b⟩ : Request α) ≠ r := by
    rintro b rfl
    exact h rfl
  have hlast : (⟨a, false⟩ : Request α) ∉ log ++ [r] ↔ (⟨a, false⟩ : Request α) ∉ log := by
    simp [hne]
  unfold Listed
  rw [hlast]
  refine or_congr ⟨?_, ?_⟩ Iff.rfl
  · rintro ⟨before, after, hlog, hafter⟩
    rcases snoc_split hlog with ⟨h, -⟩ | ⟨after', rfl, hlog'⟩
    · exact absurd h (hne true)
    · rw [mem_append, not_or] at hafter
      exact ⟨before, after', hlog', hafter.1⟩
  · rintro ⟨before, after, rfl, hafter⟩
    refine ⟨before, after ++ [r], by simp, ?_⟩
    simp [hafter, hne]

theorem listed_snoc [DecidableEq α] :
    Listed init (log ++ [r]) a ↔ if a = r.val then r.add = true else Listed init log a := by
  by_cases h : a = r.val
  · subst h
    obtain ⟨b, add⟩ := r
    cases add
    · simpa using not_listed_snoc_remove
    · simpa using listed_snoc_add
  · rw [if_neg h, listed_snoc_of_ne h]

theorem Tracks.start (h : init.Nodup) : Tracks init [] init := ⟨h, fun _ => listed_nil.symm⟩

/-- **A request served as a set serves it keeps the list in step with the log.** -/
theorem Tracks.snoc (h : Tracks init log l) (hs : Serves l r l') : Tracks init (log ++ [r]) l' := by
  classical
  refine ⟨hs.nodup, fun a => ?_⟩
  rw [listed_snoc]
  by_cases ha : a = r.val
  · rw [if_pos ha, ha, hs.self]
  · rw [if_neg ha, hs.other a ha, h.mem]

theorem serves_append (hl : l.Nodup) (ha : a ∉ l) : Serves l ⟨a, true⟩ (l ++ [a]) where
  nodup := by
    rw [nodup_append]
    refine ⟨hl, nodup_singleton a, ?_⟩
    rintro b hb c hc rfl
    exact ha (mem_singleton.1 hc ▸ hb)
  self := by simp
  other b hb := by simp [hb]

theorem serves_present (hl : l.Nodup) (ha : a ∈ l) : Serves l ⟨a, true⟩ l :=
  ⟨hl, by simp [ha], fun _ _ => Iff.rfl⟩

theorem serves_absent (hl : l.Nodup) (ha : a ∉ l) : Serves l ⟨a, false⟩ l :=
  ⟨hl, by simp [ha], fun _ _ => Iff.rfl⟩

/-- To erase the element at an index of a list without repetition removes its value. -/
theorem serves_eraseIdx (hl : l.Nodup) {i : ℕ} (hi : i < l.length) (ha : l[i] = a) :
    Serves l ⟨a, false⟩ (l.eraseIdx i) where
  nodup := hl.sublist (eraseIdx_sublist l i)
  self := by
    refine iff_of_false ?_ (by simp)
    intro hm
    rw [mem_eraseIdx_iff_getElem] at hm
    obtain ⟨j, hj, hne, hja⟩ := hm
    exact hne ((List.Nodup.getElem_inj_iff hl).1 (hja.trans ha.symm))
  other b hb := by
    rw [mem_eraseIdx_iff_getElem, mem_iff_getElem]
    constructor
    · rintro ⟨j, hj, -, hjb⟩
      exact ⟨j, hj, hjb⟩
    · rintro ⟨j, hj, hjb⟩
      refine ⟨j, hj, ?_, hjb⟩
      rintro rfl
      exact hb (hjb.symm.trans ha)

end AddRemove
