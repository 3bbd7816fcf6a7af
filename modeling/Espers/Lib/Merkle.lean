import Mathlib.Data.List.Nodup
import Mathlib.Data.Nat.Bitwise
import Mathlib.Data.Set.Function

/-!
# Hash trees over lists

A list is hashed pairwise into a list of half its length, the last element with itself when it has
no neighbour, until one element is left.

* `Tower` : a list, the vector of all rows over it, and its root.
* `Branch` : the neighbours on the way from an element to the root; `Branch.climb_eq` : **hashing an
  element with them gives the root**.
* `Tower.inj` : **two lists without repetitions have different roots**, when no two hashed pairs
  collide and no element of the lists is the hash of a pair.
-/

namespace Merkle

open List

variable {α : Type*} (H : α → α → α)

/-! ### Rows -/

/-- The pairs of neighbours; an element without a neighbour is paired with itself. -/
def pairs : List α → List (α × α)
  | [] => []
  | [a] => [(a, a)]
  | a :: b :: l => (a, b) :: pairs l

/-- The row above a row. -/
def up (l : List α) : List α := (pairs l).map fun p => H p.1 p.2

/-- A list, the vector of the rows from it to the root, and the root. -/
inductive Tower : List α → List α → α → Prop
  | top (a : α) : Tower [a] [a] a
  | row {l t : List α} {r : α} (hl : 2 ≤ l.length) (h : Tower (up H l) t r) : Tower l (l ++ t) r

/-- The pairs that are hashed for a list of at most `n` elements. -/
def hashed : ℕ → List α → List (α × α)
  | 0, _ => []
  | n + 1, l => if l.length ≤ 1 then [] else pairs l ++ hashed n (up H l)

variable {H} {l l' t t' : List α} {r : α}

theorem length_pairs (l : List α) : (pairs l).length = (l.length + 1) / 2 := by
  induction l using pairs.induct with
  | case1 => simp [pairs]
  | case2 a => simp [pairs]
  | case3 a b l ih =>
    rw [pairs, length_cons, ih, length_cons, length_cons]
    omega

@[simp] theorem length_up (l : List α) : (up H l).length = (l.length + 1) / 2 := by
  rw [up, length_map, length_pairs]

/-- A pair by the positions of its elements. -/
theorem getElem?_pairs (l : List α) (k : ℕ) : (pairs l)[k]? =
    (l[2 * k]?).bind fun a => (l[min (2 * k + 1) (l.length - 1)]?).map fun b => (a, b) := by
  induction l using pairs.induct generalizing k with
  | case1 => simp [pairs]
  | case2 a =>
    cases k with
    | zero => rfl
    | succ k => simp [pairs]
  | case3 a b l ih =>
    cases k with
    | zero => simp [pairs]
    | succ k =>
      rw [pairs, getElem?_cons_succ, ih, show 2 * (k + 1) = 2 * k + 1 + 1 by omega,
        getElem?_cons_succ, getElem?_cons_succ]
      cases l with
      | nil => simp
      | cons c l =>
        rw [show min (2 * k + 1 + 1 + 1) ((a :: b :: c :: l).length - 1) =
            min (2 * k + 1) ((c :: l).length - 1) + 1 + 1 by simp only [length_cons]; omega,
          getElem?_cons_succ, getElem?_cons_succ]

theorem exists_tower (hl : l ≠ []) : ∃ t r, Tower H l t r := by
  obtain ⟨n, hn⟩ : ∃ n, l.length = n := ⟨_, rfl⟩
  induction n using Nat.strong_induction_on generalizing l with
  | _ n ih =>
    by_cases h : 2 ≤ l.length
    · have hup : up H l ≠ [] := by
        intro hnil
        have := congrArg List.length hnil
        rw [length_up, length_nil] at this
        omega
      obtain ⟨t, r, htower⟩ := ih _ (by rw [length_up]; omega) hup rfl
      exact ⟨_, r, .row h htower⟩
    · have hpos := length_pos_iff.mpr hl
      obtain ⟨a, rfl⟩ := length_eq_one_iff.mp (show l.length = 1 by omega)
      exact ⟨_, _, .top _⟩

theorem Tower.getLast? (h : Tower H l t r) : t.getLast? = some r := by
  induction h with
  | top a => rfl
  | row hl h ih => rw [getLast?_append, ih, Option.some_or]

variable (H) in
/-- The neighbours on the way from position `i` to the root. -/
inductive Branch : List α → ℕ → List α → Prop
  | top (a : α) : Branch [a] 0 []
  | row {l b : List α} {i : ℕ} {s : α} (hl : 2 ≤ l.length)
    (hs : l[min (i ^^^ 1) (l.length - 1)]? = some s) (h : Branch (up H l) (i / 2) b) :
    Branch l i (s :: b)

variable (H) in
/-- An element is hashed with the neighbours on its way to the root. -/
def climb : α → ℕ → List α → α
  | x, _, [] => x
  | x, i, s :: b => climb (if i % 2 = 1 then H s x else H x s) (i / 2) b

theorem getElem?_up {i : ℕ} {x s : α} (hx : l[i]? = some x)
    (hs : l[min (i ^^^ 1) (l.length - 1)]? = some s) :
    (up H l)[i / 2]? = some (if i % 2 = 1 then H s x else H x s) := by
  have hlt := (List.getElem?_eq_some_iff.mp hx).1
  rw [up, List.getElem?_map, getElem?_pairs]
  obtain ⟨k, rfl | rfl⟩ := i.even_or_odd'
  · have hxor : 2 * k ^^^ 1 = 2 * k + 1 := Nat.xor_one_of_even (even_two_mul k)
    rw [hxor] at hs
    rw [Nat.mul_div_cancel_left k Nat.zero_lt_two, hx, hs, if_neg (by omega)]
    rfl
  · have hxor : (2 * k + 1) ^^^ 1 = 2 * k := by
      rw [Nat.xor_one_of_odd (odd_two_mul_add_one k), Nat.add_sub_cancel]
    rw [hxor, min_eq_left (by omega)] at hs
    rw [show (2 * k + 1) / 2 = k by omega, hs, min_eq_left (by omega), Option.bind_some, hx,
      if_pos (by omega)]
    rfl

/-- **Hashing an element with the neighbours on its way gives the root.** -/
theorem Branch.climb_eq {i : ℕ} {b : List α} {x : α} (h : Branch H l i b) (ht : Tower H l t r)
    (hx : l[i]? = some x) : climb H x i b = r := by
  induction h generalizing t x with
  | top a =>
    cases ht with
    | top _ => simpa [climb] using hx.symm
    | row hl _ => simp at hl
  | row hl hs h ih =>
    cases ht with
    | top _ => simp at hl
    | row _ ht => exact ih ht (getElem?_up hx hs)

/-! ### Rows without repetitions -/

theorem mem_of_mem_pairs {p : α × α} (h : p ∈ pairs l) : p.1 ∈ l ∧ p.2 ∈ l := by
  induction l using pairs.induct with
  | case1 => cases h
  | case2 a =>
    obtain rfl := mem_singleton.mp h
    exact ⟨mem_singleton_self a, mem_singleton_self a⟩
  | case3 a b l ih =>
    obtain rfl | h := mem_cons.mp h
    · exact ⟨mem_cons_self, mem_cons_of_mem a mem_cons_self⟩
    · exact ⟨.tail _ (.tail _ (ih h).1), .tail _ (.tail _ (ih h).2)⟩

theorem mem_up {y : α} (h : y ∈ up H l) : ∃ p ∈ pairs l, y = H p.1 p.2 := by
  obtain ⟨p, hp, rfl⟩ := mem_map.mp h
  exact ⟨p, hp, rfl⟩

theorem nodup_pairs (h : l.Nodup) : (pairs l).Nodup := by
  induction l using pairs.induct with
  | case1 => exact nodup_nil
  | case2 a => exact nodup_singleton _
  | case3 a b l ih =>
    rw [nodup_cons, nodup_cons] at h
    refine nodup_cons.mpr ⟨fun hmem => ?_, ih h.2.2⟩
    exact h.1 (.tail _ (mem_of_mem_pairs hmem).1)

/-- Lists without repetitions are determined by their pairs, whatever their lengths. -/
theorem pairs_inj (h : l.Nodup) (h' : l'.Nodup) (heq : pairs l = pairs l') : l = l' := by
  induction l using pairs.induct generalizing l' with
  | case1 =>
    cases l' using pairs.induct with
    | case1 => rfl
    | case2 a => cases heq
    | case3 a b l => cases heq
  | case2 a =>
    cases l' using pairs.induct with
    | case1 => cases heq
    | case2 b =>
      cases heq
      rfl
    | case3 b c l =>
      -- the element paired with itself would be there twice
      simp only [pairs, cons.injEq] at heq
      obtain ⟨⟨rfl, rfl⟩, -⟩ := heq
      simp at h'
  | case3 a b l ih =>
    cases l' using pairs.induct with
    | case1 => cases heq
    | case2 c =>
      simp only [pairs, cons.injEq] at heq
      obtain ⟨⟨rfl, rfl⟩, -⟩ := heq
      simp at h
    | case3 c d l' =>
      simp only [pairs, cons.injEq] at heq
      obtain ⟨⟨rfl, rfl⟩, htail⟩ := heq
      rw [nodup_cons, nodup_cons] at h h'
      rw [ih h.2.2 h'.2.2 htail]

variable {P : Set (α × α)}

theorem nodup_up (hP : P.InjOn fun p => H p.1 p.2) (hsub : ∀ p ∈ pairs l, p ∈ P) (h : l.Nodup) :
    (up H l).Nodup :=
  (nodup_pairs h).map_on fun p hp q hq heq => hP (hsub p hp) (hsub q hq) heq

theorem eq_of_map_eq {β : Type*} {f : α → β} {S : Set α} (hf : S.InjOn f) (h : ∀ x ∈ l, x ∈ S)
    (h' : ∀ x ∈ l', x ∈ S) (heq : l.map f = l'.map f) : l = l' := by
  induction l generalizing l' with
  | nil => exact (map_eq_nil_iff.mp heq.symm).symm
  | cons x l ih =>
    obtain ⟨y, l', rfl, hxy, htail⟩ := map_eq_cons_iff.mp heq.symm
    rw [hf (h x mem_cons_self) (h' y mem_cons_self) hxy.symm,
      ih (fun x hx => h x (.tail _ hx)) (fun x hx => h' x (.tail _ hx)) htail.symm]

theorem up_inj (hP : P.InjOn fun p => H p.1 p.2) (hsub : ∀ p ∈ pairs l, p ∈ P)
    (hsub' : ∀ p ∈ pairs l', p ∈ P) (h : l.Nodup) (h' : l'.Nodup) (heq : up H l = up H l') :
    l = l' :=
  pairs_inj h h' (eq_of_map_eq hP hsub hsub' heq)

variable (H P) in
/-- The number of times that two hashes were hashed to get an element. -/
def AtHeight : ℕ → α → Prop
  | 0, x => ∀ p ∈ P, x ≠ H p.1 p.2
  | n + 1, x => ∃ p ∈ P, x = H p.1 p.2 ∧ AtHeight n p.1

theorem AtHeight.unique (hP : P.InjOn fun p => H p.1 p.2) {m n : ℕ} {x : α} (h : AtHeight H P m x)
    (h' : AtHeight H P n x) : m = n := by
  induction m generalizing n x with
  | zero =>
    cases n with
    | zero => rfl
    | succ n =>
      obtain ⟨p, hp, rfl, -⟩ := h'
      exact absurd rfl (h p hp)
  | succ m ih =>
    obtain ⟨p, hp, rfl, hm⟩ := h
    cases n with
    | zero => exact absurd rfl (h' p hp)
    | succ n =>
      obtain ⟨q, hq, heq, hn⟩ := h'
      obtain rfl := hP hp hq heq
      rw [ih hm hn]

theorem atHeight_up {n : ℕ} (hsub : ∀ p ∈ pairs l, p ∈ P) (h : ∀ x ∈ l, AtHeight H P n x) :
    ∀ y ∈ up H l, AtHeight H P (n + 1) y := by
  intro y hy
  obtain ⟨p, hp, rfl⟩ := mem_up hy
  exact ⟨p, hsub p hp, rfl, h p.1 (mem_of_mem_pairs hp).1⟩

/-! ### Towers -/

variable (H P) in
/-- The pairs that are hashed for a list are in `P`. -/
inductive HashedIn : List α → Prop
  | short {l : List α} (hl : l.length ≤ 1) : HashedIn l
  | row {l : List α} (hpairs : ∀ p ∈ pairs l, p ∈ P) (h : HashedIn (up H l)) : HashedIn l

theorem HashedIn.of_hashed {n : ℕ} (hn : l.length ≤ n) (h : ∀ p ∈ hashed H n l, p ∈ P) :
    HashedIn H P l := by
  induction n generalizing l with
  | zero => exact .short (by omega)
  | succ n ih =>
    by_cases hl : l.length ≤ 1
    · exact .short hl
    · rw [hashed, if_neg hl] at h
      refine .row (fun p hp => h p (mem_append_left _ hp))
        (ih ?_ fun p hp => h p (mem_append_right _ hp))
      rw [length_up]
      omega

theorem HashedIn.split (h : HashedIn H P l) (hl : 2 ≤ l.length) :
    (∀ p ∈ pairs l, p ∈ P) ∧ HashedIn H P (up H l) := by
  cases h with
  | short h => omega
  | row hpairs h => exact ⟨hpairs, h⟩

theorem Tower.atHeight {n : ℕ} (ht : Tower H l t r) (hin : HashedIn H P l)
    (h : ∀ x ∈ l, AtHeight H P n x) : ∃ m, AtHeight H P m r ∧ n ≤ m ∧ (2 ≤ l.length → n < m) := by
  induction ht generalizing n with
  | top a => exact ⟨n, h a (mem_singleton_self a), le_rfl, by simp⟩
  | row hl ht ih =>
    obtain ⟨hpairs, hin'⟩ := hin.split hl
    obtain ⟨m, hm, hle, -⟩ := ih hin' (atHeight_up hpairs h)
    exact ⟨m, hm, by omega, fun _ => by omega⟩

/-- **Two lists without repetitions have different roots**, for lists of one height. -/
theorem Tower.inj {n : ℕ} (hP : P.InjOn fun p => H p.1 p.2) (ht : Tower H l t r)
    (ht' : Tower H l' t' r) (hin : HashedIn H P l) (hin' : HashedIn H P l')
    (h : ∀ x ∈ l, AtHeight H P n x)
    (h' : ∀ x ∈ l', AtHeight H P n x) (hl : l.Nodup) (hl' : l'.Nodup) : l = l' := by
  induction ht generalizing n l' t' with
  | top a =>
    cases ht' with
    | top _ => rfl
    | row hlen ht' =>
      obtain ⟨m, hm, -, hlt⟩ := (Tower.row hlen ht').atHeight hin' h'
      exact absurd (hm.unique hP (h a (mem_singleton_self a))) (by have := hlt hlen; omega)
  | row hlen ht ih =>
    cases ht' with
    | top a =>
      obtain ⟨m, hm, -, hlt⟩ := (Tower.row hlen ht).atHeight hin h
      exact absurd (hm.unique hP (h' _ (mem_singleton_self _))) (by have := hlt hlen; omega)
    | row hlen' ht' =>
      obtain ⟨hpairs, hup⟩ := hin.split hlen
      obtain ⟨hpairs', hup'⟩ := hin'.split hlen'
      exact up_inj hP hpairs hpairs' hl hl' (ih ht' hup hup' (atHeight_up hpairs h)
        (atHeight_up hpairs' h') (nodup_up hP hpairs hl) (nodup_up hP hpairs' hl'))

end Merkle
