import Mathlib.Data.List.Nodup
import Mathlib.Data.List.Flatten

/-!
# Ledgers of transactions that consume outputs

A ledger is a list of transactions, latest first.  A transaction `t : τ` consumes the outputs
`spends t` of other transactions and has outputs of its own (`makes t o`).  In a well-formed ledger
(`WellFormed`) every transaction consumes, without repetition, outputs of earlier transactions that
nobody has consumed before.

* `WellFormed.spent_nodup` : **no output is consumed twice.**
* `WellFormed.earlier` : every consumed output was made by an earlier transaction.
* `WellFormed.not_again` : a transaction that consumes something is not accepted a second time.
-/

namespace Ledger

open List

variable {τ ω : Type*} (spends : τ → List ω) (makes : τ → ω → Prop)

/-- The outputs consumed so far, latest first. -/
def spent (L : List τ) : List ω := L.flatMap spends

/-- The output exists and has not been consumed. -/
def Unspent (L : List τ) (o : ω) : Prop := (∃ t ∈ L, makes t o) ∧ o ∉ spent spends L

/-- Every transaction consumes outputs that are unspent when its turn comes. -/
inductive WellFormed : List τ → Prop
  | nil : WellFormed []
  | cons {t : τ} {L : List τ} : WellFormed L → (spends t).Nodup →
      (∀ o ∈ spends t, Unspent spends makes L o) → WellFormed (t :: L)

variable {spends makes} {L : List τ} {t : τ} {o : ω}

@[simp] theorem spent_cons : spent spends (t :: L) = spends t ++ spent spends L := rfl

theorem mem_spent_of_mem (ht : t ∈ L) (ho : o ∈ spends t) : o ∈ spent spends L :=
  mem_flatMap.2 ⟨t, ht, ho⟩

namespace WellFormed

theorem tail (h : WellFormed spends makes (t :: L)) : WellFormed spends makes L := by
  cases h; assumption

theorem of_append {A B : List τ} (h : WellFormed spends makes (A ++ B)) :
    WellFormed spends makes B := by
  induction A with
  | nil => exact h
  | cons t A ih => exact ih h.tail

/-- **No output is consumed twice.** -/
theorem spent_nodup (h : WellFormed spends makes L) : (spent spends L).Nodup := by
  induction h with
  | nil => exact nodup_nil
  | cons _ hnd hun ih =>
    rw [spent_cons, nodup_append]
    refine ⟨hnd, ih, ?_⟩
    rintro o ho o' ho' rfl
    exact (hun o ho).2 ho'

/-- **Every consumed output was made by an earlier transaction.** -/
theorem earlier {A B : List τ} (h : WellFormed spends makes (A ++ t :: B)) (ho : o ∈ spends t) :
    ∃ s ∈ B, makes s o := by
  cases h.of_append with
  | cons _ _ hun => exact (hun o ho).1

theorem made (h : WellFormed spends makes L) (ho : o ∈ spent spends L) : ∃ s ∈ L, makes s o := by
  obtain ⟨t, ht, hot⟩ := mem_flatMap.1 ho
  obtain ⟨A, B, rfl⟩ := append_of_mem ht
  obtain ⟨s, hs, hm⟩ := h.earlier hot
  exact ⟨s, mem_append_right _ (mem_cons_of_mem _ hs), hm⟩

/-- **A transaction that consumes something is not accepted a second time.** -/
theorem not_again (ht : t ∈ L) (hne : spends t ≠ []) :
    ¬ ∀ o ∈ spends t, Unspent spends makes L o := by
  intro hun
  obtain ⟨o, ho⟩ := exists_mem_of_ne_nil _ hne
  exact (hun o ho).2 (mem_spent_of_mem ht ho)

end WellFormed

end Ledger
