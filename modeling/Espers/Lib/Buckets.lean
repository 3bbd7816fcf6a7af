import Mathlib.Data.List.Count
import Mathlib.Data.List.Induction
import Mathlib.Data.List.Nodup

/-!
# Buckets

A table of buckets is a list of lists.  What is counted is how often an element occurs in all of
them.

* `copies a bs` : how often `a` occurs in the buckets.
* `copies_set`, `total_set` : one bucket changes.
* `copies_eraseAll` : an element goes from every bucket.
* `copies_eq_countP` : in buckets that are sets, the copies are the buckets.
* `scatter N base keys` : numbers, each in the bucket that its key names.
* `Same bs cs` : the buckets hold the same elements.
-/

namespace Buckets

open List Nat Option

section Lists

variable {α : Type*} {bs : List (List α)} {b : List α} {i : ℕ}

/-- The number of elements in all buckets. -/
def total (bs : List (List α)) : ℕ := bs.flatten.length

theorem total_set (h : bs[i]? = some b) (b' : List α) : total (bs.set i b') + b.length =
    total bs + b'.length := by
  induction bs generalizing i with
  | nil => cases h
  | cons c bs ih =>
    cases i with
    | zero =>
      cases h
      simp only [total, set_cons_zero, flatten_cons, length_append]
      omega
    | succ i =>
      have := ih (i := i) h
      simp only [total, set_cons_succ, flatten_cons, length_append] at this ⊢
      omega

theorem modify_of_getElem? {f : List α → List α} (h : bs[i]? = some b) :
    bs.modify i f = bs.set i (f b) := by
  refine ext_getElem? fun j => ?_
  rw [getElem?_modify, getElem?_set]
  obtain ⟨hlt, -⟩ := List.getElem?_eq_some_iff.mp h
  split_ifs with hij
  · subst hij
    simp [h]
  · simp

theorem set_of_getElem? (h : bs[i]? = some b) : bs.set i b = bs := by
  obtain ⟨hlt, rfl⟩ := List.getElem?_eq_some_iff.mp h
  exact set_getElem_self hlt

theorem forall_mem_set {p : List α → Prop} (h : ∀ b ∈ bs, p b) {b' : List α} (hb' : p b') :
    ∀ b ∈ bs.set i b', p b := by
  intro b hmem
  rcases mem_or_eq_of_mem_set hmem with hold | rfl
  · exact h b hold
  · exact hb'

end Lists

variable {α : Type*} [DecidableEq α] {a k : α} {bs : List (List α)} {b : List α} {i : ℕ}

/-- How often an element occurs in the buckets. -/
def copies (a : α) (bs : List (List α)) : ℕ := bs.flatten.count a

@[simp] theorem copies_nil (a : α) : copies a [] = 0 := rfl

theorem copies_cons (a : α) (b : List α) (bs : List (List α)) :
    copies a (b :: bs) = b.count a + copies a bs := by
  rw [copies, copies, flatten_cons, count_append]

theorem copies_replicate_nil (a : α) (n : ℕ) : copies a (replicate n []) = 0 := by
  induction n with
  | zero => rfl
  | succ n ih => rw [replicate_succ, copies_cons, ih, count_nil]

theorem copies_set (h : bs[i]? = some b) (a : α) (b' : List α) :
    copies a (bs.set i b') + b.count a = copies a bs + b'.count a := by
  induction bs generalizing i with
  | nil => cases h
  | cons c bs ih =>
    cases i with
    | zero =>
      cases h
      rw [set_cons_zero, copies_cons, copies_cons]
      omega
    | succ i =>
      have := ih (i := i) h
      rw [set_cons_succ, copies_cons, copies_cons]
      omega

theorem copies_erase (h : bs[i]? = some b) (hset : b.Nodup) (ha : a ∈ b) (c : α) :
    copies c (bs.set i (b.erase a)) + (if c = a then 1 else 0) = copies c bs := by
  have := copies_set h c (b.erase a)
  split_ifs with hc
  · subst hc
    have hone := count_eq_one_of_mem hset ha
    rw [count_erase_self] at this
    omega
  · rw [count_erase_of_ne hc] at this
    omega

theorem copies_pos : 0 < copies a bs ↔ ∃ b ∈ bs, a ∈ b := by
  rw [copies, count_pos_iff, mem_flatten]

theorem copies_eq_zero : copies a bs = 0 ↔ ∀ b ∈ bs, a ∉ b := by
  rw [copies, count_eq_zero, mem_flatten]
  push Not
  rfl

theorem not_mem_of_copies (h : copies a bs = 0) (hb : bs[i]? = some b) : a ∉ b := by
  intro hmem
  have := copies_pos.mpr ⟨b, mem_of_getElem? hb, hmem⟩
  omega

theorem copies_pos_of_getElem? (hb : bs[i]? = some b) (hmem : a ∈ b) : 0 < copies a bs :=
  copies_pos.mpr ⟨b, mem_of_getElem? hb, hmem⟩

omit [DecidableEq α] in
theorem mem_getD : a ∈ bs.getD i [] ↔ ∃ bucket, bs[i]? = some bucket ∧ a ∈ bucket := by
  rw [getD_eq_getElem?_getD]
  cases bs[i]? with
  | none => simp
  | some bucket => simp

theorem eq_of_copies {j : ℕ} (hone : copies a bs = 1) (hi : a ∈ bs.getD i [])
    (hj : a ∈ bs.getD j []) : i = j := by
  obtain ⟨bucket, hget, hmem⟩ := mem_getD.mp hi
  obtain ⟨bucket', hget', hmem'⟩ := mem_getD.mp hj
  by_contra hne
  have hset := copies_set hget a []
  have hpos := count_pos_iff.mpr hmem
  have hother : (bs.set i [])[j]? = some bucket' := by rwa [getElem?_set_ne hne]
  have := copies_pos_of_getElem? hother hmem'
  rw [count_nil] at hset
  omega

theorem copies_eraseAll (hnodup : ∀ b ∈ bs, b.Nodup) (a k : α) :
    copies a (bs.map (·.erase k)) = if a = k then 0 else copies a bs := by
  induction bs with
  | nil => simp
  | cons b bs ih =>
    have hb := hnodup b mem_cons_self
    rw [map_cons, copies_cons, copies_cons, ih fun b hmem => hnodup b (.tail _ hmem)]
    split_ifs with h
    · subst h
      rw [count_eq_zero.mpr hb.not_mem_erase]
    · rw [count_erase_of_ne h]

theorem copies_eq_countP (hnodup : ∀ b ∈ bs, b.Nodup) (a : α) :
    copies a bs = bs.countP (a ∈ ·) := by
  induction bs with
  | nil => rfl
  | cons b bs ih =>
    have hb := hnodup b mem_cons_self
    rw [copies_cons, countP_cons, ih fun b hmem => hnodup b (.tail _ hmem), List.Nodup.count hb]
    simp only [decide_eq_true_eq]
    omega

/-- Two elements of a bucket change places. -/
theorem perm_swap {j : ℕ} {x y : α} (hi : b[i]? = some x) (hj : b[j]? = some y) :
    ((b.set j x).set i y).Perm b := by
  obtain ⟨hilt, hix⟩ := List.getElem?_eq_some_iff.mp hi
  obtain ⟨hjlt, hjy⟩ := List.getElem?_eq_some_iff.mp hj
  by_cases hij : i = j
  · subst hij
    rw [hi] at hj
    cases hj
    have hset : b.set i x = b := by
      rw [← hix, set_getElem_self hilt]
    rw [set_set, hset]
  · have hilt' : i < (b.set j x).length := by rwa [length_set]
    rw [perm_iff_count]
    intro a
    rw [count_set hilt', count_set hjlt, getElem_set_ne (by omega), hix, hjy]
    have hx := count_pos_iff.mpr (mem_of_getElem? hi)
    have hy := count_pos_iff.mpr (mem_of_getElem? hj)
    simp only [beq_iff_eq]
    split_ifs with h1 h2 h3 <;> subst_vars <;> omega

/-! ### Numbers in buckets -/

section Scatter

variable {N base b n k : ℕ} {keys : List ℕ}

/-- The numbers from `base` on, each in the bucket that its key names. -/
def scatter (N base : ℕ) (keys : List ℕ) : List (List ℕ) :=
  (List.range N).map fun b =>
    ((List.range keys.length).filter fun i => keys[i]? = some b).map (base + ·)

@[simp] theorem length_scatter : (scatter N base keys).length = N := by
  simp [scatter]

theorem getElem?_scatter (hb : b < N) : (scatter N base keys)[b]? =
    some (((List.range keys.length).filter fun i => keys[i]? = some b).map (base + ·)) := by
  rw [scatter, getElem?_map, getElem?_range hb]
  rfl

theorem scatter_nil : scatter N base [] = replicate N [] := by
  simp [scatter]

/-- The next number goes to the end of its bucket. -/
theorem scatter_concat : scatter N base (keys ++ [k]) =
    (scatter N base keys).modify k fun bucket => bucket ++ [base + keys.length] := by
  refine ext_getElem? fun b => ?_
  rw [getElem?_modify]
  by_cases hb : b < N
  · rw [getElem?_scatter hb, getElem?_scatter hb, length_append, length_singleton,
      range_succ, filter_append, map_append]
    have hold : (List.range keys.length).filter (fun i => (keys ++ [k])[i]? = some b) =
        (List.range keys.length).filter fun i => keys[i]? = some b := by
      refine filter_congr fun i hi => ?_
      rw [getElem?_append_left (mem_range.mp hi)]
    have hlast : (keys ++ [k])[keys.length]? = some k := by simp
    rw [hold, filter_singleton, hlast]
    by_cases hkb : k = b
    · simp [hkb]
    · simp [hkb]
  · rw [getElem?_eq_none (by simpa using Nat.le_of_not_lt hb),
      getElem?_eq_none (by simpa using Nat.le_of_not_lt hb)]
    rfl

variable {bucket : List ℕ}

theorem mem_scatter (hb : (scatter N base keys)[b]? = some bucket) :
    n ∈ bucket ↔ ∃ i, n = base + i ∧ keys[i]? = some b := by
  have hlt : b < N := by simpa using (List.getElem?_eq_some_iff.mp hb).1
  rw [getElem?_scatter hlt, some.injEq] at hb
  subst hb
  simp only [List.mem_map, mem_filter, mem_range, decide_eq_true_eq]
  constructor
  · rintro ⟨i, ⟨-, hi⟩, rfl⟩
    exact ⟨i, rfl, hi⟩
  · rintro ⟨i, rfl, hi⟩
    exact ⟨i, ⟨(List.getElem?_eq_some_iff.mp hi).1, hi⟩, rfl⟩

/-- A bucket is as large as its number occurs among the keys. -/
theorem length_of_scatter (hb : (scatter N base keys)[b]? = some bucket) :
    bucket.length = keys.count b := by
  have hlt : b < N := by simpa using (List.getElem?_eq_some_iff.mp hb).1
  rw [getElem?_scatter hlt, some.injEq] at hb
  rw [← hb, length_map]
  clear hb
  induction keys using List.reverseRecOn with
  | nil => rfl
  | append_singleton keys k ih =>
    rw [length_append, length_singleton, range_succ, filter_append,
      length_append, count_append, ← ih]
    congr 1
    · refine congrArg List.length (filter_congr fun i hi => ?_)
      rw [getElem?_append_left (mem_range.mp hi)]
    · by_cases hkb : k = b
      · simp [hkb]
      · simp [hkb]

theorem nodup_of_scatter (hb : bucket ∈ scatter N base keys) : bucket.Nodup := by
  obtain ⟨b, -, rfl⟩ := mem_map.mp hb
  exact (nodup_range.filter _).map fun i j h => Nat.add_left_cancel h

theorem copies_scatter (hkeys : ∀ k ∈ keys, k < N) :
    copies n (scatter N base keys) = if base ≤ n ∧ n < base + keys.length then 1 else 0 := by
  induction keys using List.reverseRecOn with
  | nil =>
    rw [scatter_nil, copies_replicate_nil, if_neg]
    simp
  | append_singleton keys k ih =>
    have hk := hkeys k (by simp)
    have hget : (scatter N base keys)[k]? = _ := getElem?_scatter hk
    have hset := copies_set hget n
      (((List.range keys.length).filter fun i => keys[i]? = some k).map (base + ·) ++
      [base + keys.length])
    rw [ih fun k hmem => hkeys k (by simp [hmem]), count_append, count_singleton] at hset
    rw [scatter_concat, modify_of_getElem? hget, length_append, length_singleton]
    simp only [beq_iff_eq] at hset
    split_ifs at hset ⊢ <;> omega

end Scatter

/-! ### Buckets in another order -/

section Same

variable {α : Type*} {bs cs : List (List α)} {b : List α} {i : ℕ}

/-- The buckets hold the same elements. -/
abbrev Same (bs cs : List (List α)) : Prop := List.Forall₂ List.Perm bs cs

theorem Same.refl (bs : List (List α)) : Same bs bs := forall₂_same.mpr fun _ _ => .refl _

theorem Same.symm (h : Same bs cs) : Same cs bs := by
  induction h with
  | nil => exact .nil
  | cons hperm _ ih => exact .cons hperm.symm ih

theorem Same.copies_eq [DecidableEq α] (h : Same bs cs) (a : α) : copies a bs = copies a cs :=
  (Perm.flatten_congr h).count_eq a

theorem Same.getElem? (h : Same bs cs) (hb : bs[i]? = some b) : ∃ c, cs[i]? = some c ∧
    b.Perm c := by
  induction h generalizing i with
  | nil => cases hb
  | cons hperm _ ih =>
    cases i with
    | zero =>
      cases hb
      exact ⟨_, rfl, hperm⟩
    | succ i => exact ih hb

theorem Same.mem (h : Same bs cs) (hb : b ∈ bs) : ∃ c ∈ cs, b.Perm c := by
  obtain ⟨i, hi⟩ := getElem?_of_mem hb
  obtain ⟨c, hc, hperm⟩ := h.getElem? hi
  exact ⟨c, mem_of_getElem? hc, hperm⟩

theorem eq_replicate_of_same {k : ℕ} (h : Same bs (replicate k [])) : bs = replicate k [] := by
  refine eq_replicate_iff.mpr
    ⟨by rw [h.length_eq, length_replicate], fun bucket hmem => ?_⟩
  obtain ⟨c, hc, hperm⟩ := h.mem hmem
  obtain rfl := eq_of_mem_replicate hc
  exact hperm.eq_nil

theorem Same.mem_getD_iff (h : Same bs cs) {a : α} : a ∈ bs.getD i [] ↔ a ∈ cs.getD i [] := by
  rw [mem_getD, mem_getD]
  constructor
  · rintro ⟨bucket, hget, hmem⟩
    obtain ⟨c, hc, hperm⟩ := h.getElem? hget
    exact ⟨c, hc, hperm.mem_iff.mp hmem⟩
  · rintro ⟨c, hc, hmem⟩
    obtain ⟨bucket, hget, hperm⟩ := h.symm.getElem? hc
    exact ⟨bucket, hget, hperm.mem_iff.mp hmem⟩

theorem Same.modify {f g : List α → List α} (h : Same bs cs)
    (hfg : ∀ b c, bs[i]? = some b → b.Perm c → (f b).Perm (g c)) :
    Same (bs.modify i f) (cs.modify i g) := by
  induction h generalizing i with
  | nil => cases i <;> exact .nil
  | cons hperm htail ih =>
    cases i with
    | zero => exact .cons (hfg _ _ rfl hperm) htail
    | succ i => exact .cons hperm (ih fun b c hb => hfg b c hb)

end Same

end Buckets
