import Mathlib.Data.List.AList

/-!
# Lists with an index of iterators

Several owners each keep a list; a map leads from a key to the owner and the cell of the list whose
value has that key.  An iterator is the address of a cell, which no other cell of the list shares.

* `Linked key m lists` : the map has an entry exactly for each cell, so that a key occurs in one
  cell of one list at most (`Linked.unique`).
* `Linked.append`, `Linked.erase`, `Linked.dropOwner` : the three ways to change the lists and the
  map together.
-/

namespace CellList

open List Function AList Option

variable {K O V : Type} [DecidableEq K]

/-- A cell of a list. -/
structure Cell (V : Type) where
  addr : ℕ
  val : V
  deriving DecidableEq, Repr

/-- `list::erase(it)`. -/
def eraseCell (l : List (Cell V)) (a : ℕ) : List (Cell V) := l.eraseP fun c => c.addr = a

theorem mem_eraseCell {l : List (Cell V)} (h : (l.map Cell.addr).Nodup) {a : ℕ} {d : Cell V} :
    d ∈ eraseCell l a ↔ d ∈ l ∧ d.addr ≠ a := by
  unfold eraseCell
  induction l with
  | nil => simp
  | cons c l ih =>
    rw [map_cons, nodup_cons] at h
    by_cases hc : c.addr = a
    · -- no later cell has the address
      have hl : ∀ d ∈ l, d.addr ≠ a := by
        intro d hd he
        exact h.1 (mem_map.2 ⟨d, hd, he.trans hc.symm⟩)
      rw [eraseP_cons_of_pos (by simpa using hc), mem_cons]
      constructor
      · intro hd
        exact ⟨.inr hd, hl d hd⟩
      · rintro ⟨rfl | hd, hne⟩
        · exact absurd hc hne
        · exact hd
    · rw [eraseP_cons_of_neg (by simpa using hc), mem_cons, ih h.2, mem_cons]
      constructor
      · rintro (rfl | ⟨hd, hne⟩)
        · exact ⟨.inl rfl, hc⟩
        · exact ⟨.inr hd, hne⟩
      · rintro ⟨rfl | hd, hne⟩
        · exact .inl rfl
        · exact .inr ⟨hd, hne⟩

theorem length_eraseCell {l : List (Cell V)} {c : Cell V} (hc : c ∈ l) :
    (eraseCell l c.addr).length + 1 = l.length := by
  unfold eraseCell
  rw [length_eraseP_of_mem hc (by simp)]
  have := length_pos_of_mem hc
  omega

/-- The map has an entry exactly for each cell of a list. -/
structure Linked (key : V → K) (m : AList fun _ : K => O × ℕ) (lists : O → List (Cell V)) :
    Prop where
  entry : ∀ k o a, m.lookup k = some (o, a) ↔ ∃ c ∈ lists o, c.addr = a ∧ key c.val = k
  nodup : ∀ o, ((lists o).map Cell.addr).Nodup

namespace Linked

variable {key : V → K} {m : AList fun _ : K => O × ℕ} {lists : O → List (Cell V)}

theorem lookup (h : Linked key m lists) {o : O} {c : Cell V} (hc : c ∈ lists o) :
    m.lookup (key c.val) = some (o, c.addr) := (h.entry _ _ _).2 ⟨c, hc, rfl, rfl⟩

theorem eq_of_addr (h : Linked key m lists) {o : O} {c c' : Cell V} (hc : c ∈ lists o)
    (hc' : c' ∈ lists o) (ha : c.addr = c'.addr) : c = c' :=
  inj_on_of_nodup_map (h.nodup o) hc hc' ha

/-- **A key occurs in one cell of one list at most.** -/
theorem unique (h : Linked key m lists) {o o' : O} {c c' : Cell V} (hc : c ∈ lists o)
    (hc' : c' ∈ lists o') (hk : key c.val = key c'.val) : o = o' ∧ c = c' := by
  have h1 := h.lookup hc
  have h2 := h.lookup hc'
  rw [hk, h2, some.injEq, Prod.mk.injEq] at h1
  obtain ⟨rfl, ha⟩ := h1
  exact ⟨rfl, h.eq_of_addr hc hc' ha.symm⟩

theorem lookup_foldl_erase (l : List (Cell V)) (m : AList fun _ : K => O × ℕ) (k : K) :
    (l.foldl (fun m c => m.erase (key c.val)) m).lookup k =
      if ∃ c ∈ l, key c.val = k then none else m.lookup k := by
  induction l generalizing m with
  | nil => simp
  | cons c l ih =>
    rw [foldl_cons, ih]
    by_cases hk : key c.val = k
    · subst hk
      simp
    · rw [lookup_erase_ne (Ne.symm hk)]
      simp [hk]

theorem lookup_foldl_erase_none (key : V → K) (l : List (Cell V)) {m : AList fun _ : K => O × ℕ}
    {k : K} (h : m.lookup k = none) :
    (l.foldl (fun m c => m.erase (key c.val)) m).lookup k = none := by
  rw [lookup_foldl_erase]
  split_ifs
  · rfl
  · exact h

variable [DecidableEq O]

/-- A new cell at the end of a list, with its entry. -/
theorem append (h : Linked key m lists) {o : O} {a : ℕ} {v : V} (hk : m.lookup (key v) = none)
    (ha : ∀ c ∈ lists o, c.addr ≠ a) :
    Linked key (m.insert (key v) (o, a)) (update lists o (lists o ++ [⟨a, v⟩])) := by
  -- no cell has the key yet
  have hnew : ∀ o' c, c ∈ lists o' → key c.val ≠ key v := by
    intro o' c hc he
    have := h.lookup hc
    rw [he, hk] at this
    cases this
  refine ⟨fun k o' a' => ?_, fun o' => ?_⟩
  · by_cases hkk : k = key v
    · subst hkk
      rw [lookup_insert, some.injEq, Prod.mk.injEq]
      constructor
      · rintro ⟨rfl, rfl⟩
        exact ⟨⟨a, v⟩, by simp, rfl, rfl⟩
      · rintro ⟨c, hc, rfl, he⟩
        by_cases ho : o' = o
        · subst ho
          rw [update_self, mem_append, mem_singleton] at hc
          rcases hc with hc | rfl
          · exact absurd he (hnew _ c hc)
          · exact ⟨rfl, rfl⟩
        · rw [update_of_ne ho] at hc
          exact absurd he (hnew _ c hc)
    · rw [lookup_insert_ne hkk, h.entry]
      by_cases ho : o' = o
      · subst ho
        rw [update_self]
        constructor
        · rintro ⟨c, hc, h1, h2⟩
          exact ⟨c, mem_append_left _ hc, h1, h2⟩
        · rintro ⟨c, hc, h1, h2⟩
          rcases mem_append.1 hc with hc | hc
          · exact ⟨c, hc, h1, h2⟩
          · obtain rfl := mem_singleton.1 hc
            exact absurd h2.symm hkk
      · rw [update_of_ne ho]
  · by_cases ho : o' = o
    · subst ho
      rw [update_self, map_append, map_singleton, nodup_append]
      refine ⟨h.nodup o', nodup_singleton _, ?_⟩
      intro x hx y hy
      obtain ⟨c, hc, rfl⟩ := mem_map.1 hx
      rw [mem_singleton] at hy
      subst hy
      exact ha c hc
    · rw [update_of_ne ho]
      exact h.nodup o'

/-- A cell taken out of its list, with its entry. -/
theorem erase (h : Linked key m lists) {k : K} {o : O} {a : ℕ} (hl : m.lookup k = some (o, a)) :
    Linked key (m.erase k) (update lists o (eraseCell (lists o) a)) := by
  obtain ⟨c, hc, rfl, rfl⟩ := (h.entry _ _ _).1 hl
  refine ⟨fun k o' a' => ?_, fun o' => ?_⟩
  · by_cases hkk : k = key c.val
    · subst hkk
      rw [lookup_erase]
      constructor
      · intro h'
        cases h'
      · rintro ⟨d, hd, -, he⟩
        by_cases ho : o' = o
        · subst ho
          rw [update_self, mem_eraseCell (h.nodup o')] at hd
          obtain ⟨-, rfl⟩ := h.unique hd.1 hc he
          exact absurd rfl hd.2
        · rw [update_of_ne ho] at hd
          exact absurd (h.unique hd hc he).1 ho
    · rw [lookup_erase_ne hkk, h.entry]
      by_cases ho : o' = o
      · subst ho
        rw [update_self]
        refine exists_congr fun d => ?_
        rw [mem_eraseCell (h.nodup o')]
        constructor
        · rintro ⟨hd, h1, rfl⟩
          refine ⟨⟨hd, fun ha => ?_⟩, h1, rfl⟩
          exact hkk (congrArg (fun c => key c.val) (h.eq_of_addr hd hc ha))
        · rintro ⟨hd, h1, h2⟩
          exact ⟨hd.1, h1, h2⟩
      · rw [update_of_ne ho]
  · by_cases ho : o' = o
    · subst ho
      rw [update_self]
      exact (h.nodup o').sublist (eraseP_sublist.map _)
    · rw [update_of_ne ho]
      exact h.nodup o'

/-- A list given up, with the entries of all its cells. -/
theorem dropOwner (h : Linked key m lists) (o : O) :
    Linked key ((lists o).foldl (fun m c => m.erase (key c.val)) m) (update lists o []) := by
  refine ⟨fun k o' a => ?_, fun o' => ?_⟩
  · rw [lookup_foldl_erase]
    by_cases ho : o' = o
    · subst ho
      rw [update_self]
      simp only [not_mem_nil, false_and, exists_false, iff_false]
      split_ifs with hk
      · simp
      · intro hl
        obtain ⟨c, hc, -, he⟩ := (h.entry _ _ _).1 hl
        exact hk ⟨c, hc, he⟩
    · rw [update_of_ne ho, ← h.entry]
      split_ifs with hk
      · obtain ⟨c, hc, rfl⟩ := hk
        rw [h.lookup hc]
        simp [Ne.symm ho]
      · rfl
  · by_cases ho : o' = o
    · subst ho
      simp
    · rw [update_of_ne ho]
      exact h.nodup o'

end Linked

end CellList
