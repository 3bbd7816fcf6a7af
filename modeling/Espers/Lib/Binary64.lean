import Mathlib.Data.Nat.Log
import Mathlib.Tactic.NormNum

/-!
# Double-precision arithmetic

A `Binary64` is a value of the IEEE 754 format of that name: a finite one is kept as the rational
number it stands for.  The arithmetic computes the exact rational result and rounds it to the
nearest value of the format, ties to the even one (`Binary64.ofRat`).  Everything is integer
arithmetic, so closed terms can be evaluated by the kernel; the elaborator does not unfold the
rounding.

The two zeros are one value here.
-/

/-- A double. -/
inductive Binary64 where
  | nan
  | inf (neg : Bool)
  | fin (q : ℚ)
  deriving DecidableEq

namespace Binary64

/-! ### Rounding -/

/-- `a / b` rounded to the nearest integer, ties to the even one. -/
def divNearest (a b : ℕ) : ℕ :=
  if 2 * (a % b) < b ∨ 2 * (a % b) = b ∧ a / b % 2 = 0 then a / b else a / b + 1

/-- The largest `e` with `2 ^ e ≤ a / b`. -/
def exponent (a b : ℕ) : ℤ :=
  let e : ℤ := a.log2 - b.log2
  -- the quotient of the leading powers of two is `2 ^ e`, so `a / b` lies within a factor of two
  if a * 2 ^ (-e).toNat < b * 2 ^ e.toNat then e - 1 else e

/-- The exponent of the last place of a 53-bit significand, subnormal below `2 ^ -1022`. -/
def lastPlace (a b : ℕ) : ℤ := max (exponent a b - 52) (-1074)

/-- The magnitude `a / b`, rounded to the format. -/
def roundMagnitude (a b : ℕ) : ℚ :=
  let k := lastPlace a b
  mkRat (divNearest (a * 2 ^ (-k).toNat) (b * 2 ^ k.toNat) * 2 ^ k.toNat) (2 ^ (-k).toNat)

/-- The value of the format nearest to `q`. -/
@[irreducible] def ofRat (q : ℚ) : Binary64 :=
  if q.num = 0 then .fin 0
  else
    let r := roundMagnitude q.num.natAbs q.den
    if 2 ^ 1024 * (r.den : ℤ) ≤ r.num then .inf (q.num < 0)
    else .fin (if q.num < 0 then -r else r)

/-- The conversion of an integer. -/
def ofNat (n : ℕ) : Binary64 := ofRat n

/-! ### Arithmetic -/

/-- `x + y`. -/
def add : Binary64 → Binary64 → Binary64
  | .fin p, .fin q => ofRat (p + q)
  | .nan, _ => .nan
  | _, .nan => .nan
  | .inf s, .inf t => if s = t then .inf s else .nan
  | .inf s, .fin _ => .inf s
  | .fin _, .inf t => .inf t

/-- `x * y`. -/
def mul : Binary64 → Binary64 → Binary64
  | .fin p, .fin q => ofRat (p * q)
  | .nan, _ => .nan
  | _, .nan => .nan
  | .inf s, .inf t => .inf (s != t)
  | .inf s, .fin q => if q.num = 0 then .nan else .inf (s != decide (q.num < 0))
  | .fin p, .inf t => if p.num = 0 then .nan else .inf (decide (p.num < 0) != t)

/-- `x / y`. -/
def div : Binary64 → Binary64 → Binary64
  | .fin p, .fin q =>
    if q.num = 0 then (if p.num = 0 then .nan else .inf (decide (p.num < 0))) else ofRat (p / q)
  | .nan, _ => .nan
  | _, .nan => .nan
  | .inf _, .inf _ => .nan
  | .inf s, .fin q => .inf (s != decide (q.num < 0))
  | .fin _, .inf _ => .fin 0

/-- `x < y`. -/
def lt : Binary64 → Binary64 → Bool
  | .fin p, .fin q => decide (p < q)
  | .nan, _ => false
  | _, .nan => false
  | .inf s, .inf t => s && !t
  | .inf s, .fin _ => s
  | .fin _, .inf t => !t

/-- The conversion to `int64_t`: towards zero; the smallest number when the value does not fit. -/
def toInt64 : Binary64 → ℤ
  | .fin q =>
    let n := q.num.tdiv q.den
    if -2 ^ 63 ≤ n ∧ n < 2 ^ 63 then n else -2 ^ 63
  | _ => -2 ^ 63

/-! ### Quarters

Small multiples of a quarter are values of the format, and sums of them are exact. -/

/-- `n / 4`. -/
def quarters (n : ℕ) : Binary64 := .fin (mkRat n 4)

theorem quarters_add {m n : ℕ} (hm : m ≤ 32) (hn : n ≤ 8) :
    (quarters m).add (quarters n) = quarters (m + n) := by
  have h : ∀ m : Fin 33, ∀ n : Fin 9, (quarters m).add (quarters n) = quarters (m + n) := by
    decide +kernel
  exact h ⟨m, by omega⟩ ⟨n, by omega⟩

theorem fifth_not_lt_half {n : ℕ} (h : 10 ≤ n) (h' : n ≤ 40) :
    ((quarters n).div (ofNat 5)).lt (quarters 2) = false := by
  have hall : ∀ n : Fin 31, ((quarters (n + 10)).div (ofNat 5)).lt (quarters 2) = false := by
    decide +kernel
  have := hall ⟨n - 10, by omega⟩
  rwa [show n - 10 + 10 = n by omega] at this

end Binary64
