import Mathlib.Tactic.Linarith

/-!
# Amounts and 64-bit arithmetic

Amounts are `int64_t` in the source.  The model computes with unbounded integers and wraps every
sum, difference and product to two's complement (`wrap64`).
-/

namespace Espers

/-- The `int64_t` value with the same lowest 64 bits as `x`. -/
def wrap64 (x : ℤ) : ℤ :=
  (x + 9223372036854775808) % 18446744073709551616 - 9223372036854775808

/-- `int64_t` addition. -/
def add64 (a b : ℤ) : ℤ := wrap64 (a + b)

/-- `int64_t` subtraction. -/
def sub64 (a b : ℤ) : ℤ := wrap64 (a - b)

/-- `int64_t` multiplication. -/
def mul64 (a b : ℤ) : ℤ := wrap64 (a * b)

/-- One coin, in the smallest unit. -/
def coin : ℤ := 100000000

/-- One hundredth of a coin. -/
def cent : ℤ := 1000000

/-- No amount larger than this is valid: 50 billion coins, the cap of the supply. -/
def maxSingleTx : ℤ := 50000000000 * coin

/-- The amount is neither negative nor above the cap. -/
def moneyRange (nValue : ℤ) : Bool := decide (0 ≤ nValue) && decide (nValue ≤ maxSingleTx)

theorem moneyRange_iff {x : ℤ} : moneyRange x = true ↔ 0 ≤ x ∧ x ≤ 5000000000000000000 := by
  have hmax : maxSingleTx = 5000000000000000000 := by decide
  rw [moneyRange, Bool.and_eq_true, decide_eq_true_eq, decide_eq_true_eq, hmax]

theorem wrap64_of_range {x : ℤ} (h : -9223372036854775808 ≤ x) (h' : x < 9223372036854775808) :
    wrap64 x = x := by
  unfold wrap64; omega

theorem zero_add64 {x : ℤ} (h : -9223372036854775808 ≤ x) (h' : x < 9223372036854775808) :
    add64 0 x = x := by
  rw [add64, zero_add, wrap64_of_range h h']

theorem wrap64_range (x : ℤ) :
    -9223372036854775808 ≤ wrap64 x ∧ wrap64 x < 9223372036854775808 := by
  unfold wrap64; omega

theorem wrap64_wrap_add (a b : ℤ) : wrap64 (wrap64 a + b) = wrap64 (a + b) := by
  unfold wrap64; omega

theorem wrap64_add_wrap (a b : ℤ) : wrap64 (a + wrap64 b) = wrap64 (a + b) := by
  unfold wrap64; omega

theorem wrap64_wrap_sub (a b : ℤ) : wrap64 (wrap64 a - b) = wrap64 (a - b) := by
  unfold wrap64; omega

@[simp] theorem wrap64_wrap64 (a : ℤ) : wrap64 (wrap64 a) = wrap64 a := by
  unfold wrap64; omega

theorem sub64_add64_self (a b : ℤ) : sub64 (add64 a b) b = wrap64 a := by
  unfold sub64 add64
  rw [wrap64_wrap_sub, add_sub_cancel_right]

theorem sub_le_of_le_add64 {a b r : ℤ} (ha : 0 ≤ a) (ha' : a < 9223372036854775808) (hb : 0 ≤ b)
    (hr : wrap64 r = r) (h : b ≤ add64 a r) : b - a ≤ r := by
  have := wrap64_range r
  unfold add64 wrap64 at h
  omega

theorem add64_of_moneyRange {a b : ℤ} (ha : 0 ≤ a) (ha' : a ≤ 5000000000000000000)
    (hb : 0 ≤ b) (hb' : b ≤ 5000000000000000000) (h : moneyRange (add64 a b) = true) :
    add64 a b = a + b := by
  rw [moneyRange_iff] at h
  unfold add64 wrap64 at h ⊢
  omega

theorem add64_of_nonneg {a b : ℤ} (ha : 0 ≤ a) (ha' : a < 9223372036854775808)
    (hb : 0 ≤ b) (hb' : b ≤ 5000000000000000000) (h : 0 ≤ add64 a b) :
    add64 a b = a + b ∧ add64 a b < 9223372036854775808 := by
  unfold add64 wrap64 at h ⊢
  omega

end Espers
