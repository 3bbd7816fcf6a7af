import Mathlib.Data.Nat.Digits.Lemmas

/-!
# Changing the base of a number

Digits, the most significant one first, are rewritten from one base in another.  Zeros in front do
not count for the number and are kept one for one.

* `convert_convert` : **the way back undoes the conversion**.
-/

namespace Radix

open List Nat

/-- How many zeros are in front. -/
def leadingZeros (ds : List ℕ) : ℕ := (ds.takeWhile (· = 0)).length

/-- The number that the digits stand for. -/
def value (b : ℕ) (ds : List ℕ) : ℕ := Nat.ofDigits b ds.reverse

/-- The digits in base `c` of a number in base `b`, with as many zeros in front. -/
def convert (b c : ℕ) (ds : List ℕ) : List ℕ :=
  List.replicate (leadingZeros ds) 0 ++ (Nat.digits c (value b ds)).reverse

theorem leadingZeros_replicate_append (z : ℕ) (ds : List ℕ) :
    leadingZeros (List.replicate z 0 ++ ds) = z + leadingZeros ds := by
  rw [leadingZeros, takeWhile_append_of_pos (by simp), length_append, length_replicate]
  rfl

theorem value_replicate_append (b z : ℕ) (ds : List ℕ) :
    value b (List.replicate z 0 ++ ds) = value b ds := by
  rw [value, reverse_append, reverse_replicate, ofDigits_append_replicate_zero]
  rfl

theorem leadingZeros_digits (c n : ℕ) : leadingZeros (Nat.digits c n).reverse = 0 := by
  cases h : (Nat.digits c n).reverse with
  | nil => rfl
  | cons d ds =>
    have hrev : Nat.digits c n = ds.reverse ++ [d] := by
      rw [← reverse_reverse (Nat.digits c n), h, reverse_cons]
    have hn : n ≠ 0 := by
      rintro rfl
      simp at h
    have hd : d ≠ 0 := by
      simpa [hrev] using getLast_digit_ne_zero c hn
    simp [leadingZeros, hd]

theorem lt_of_mem_convert {b c d : ℕ} {ds : List ℕ} (hc : 1 < c) (h : d ∈ convert b c ds) :
    d < c := by
  rcases mem_append.1 h with h | h
  · rw [eq_of_mem_replicate h]
    exact zero_lt_of_lt hc
  · exact digits_lt_base hc (mem_reverse.1 h)

theorem replicate_append_digits {b : ℕ} {ds : List ℕ} (hb : 1 < b) (hds : ∀ d ∈ ds, d < b) :
    List.replicate (leadingZeros ds) 0 ++ (Nat.digits b (value b ds)).reverse = ds := by
  induction ds with
  | nil => simp [leadingZeros, value]
  | cons d ds ih =>
    have ih := ih fun e he => hds e (.tail _ he)
    by_cases hd : d = 0
    · subst hd
      have hvalue : value b (0 :: ds) = value b ds := value_replicate_append b 1 ds
      have hzeros : leadingZeros (0 :: ds) = 1 + leadingZeros ds :=
        leadingZeros_replicate_append 1 ds
      rw [hvalue, hzeros, add_comm, replicate_succ, cons_append, ih]
    · have hzeros : leadingZeros (d :: ds) = 0 := by simp [leadingZeros, hd]
      rw [hzeros, value, digits_ofDigits b hb _ (fun e he => hds e (mem_reverse.1 he))
        (by simpa using hd)]
      simp

/-- **The way back undoes the conversion.** -/
theorem convert_convert {b c : ℕ} {ds : List ℕ} (hb : 1 < b) (hds : ∀ d ∈ ds, d < b) :
    convert c b (convert b c ds) = ds := by
  have hvalue : value c (convert b c ds) = value b ds := by
    rw [convert, value_replicate_append, value, reverse_reverse, ofDigits_digits]
  have hzeros : leadingZeros (convert b c ds) = leadingZeros ds := by
    rw [convert, leadingZeros_replicate_append, leadingZeros_digits, add_zero]
  rw [convert, hvalue, hzeros, replicate_append_digits hb hds]

end Radix
