import Mathlib.Tactic.Positivity
import Mathlib.Data.Rat.Floor
import Espers.Lib.Binary64

/-!
# Bounds on double-precision arithmetic

Rounding keeps the order between a number and a value of the format.  The values here are
`m * 2 ^ j` with `m` below `2 ^ 53`.

* `exists_ofRat` : **a number between two values is rounded to a finite value between them**.
* `ofRat_natCast` : an integer below `2 ^ 53` is a value of the format.
* `ofRat_of_nonpos` : what is not above zero stays so.
* `toInt64_spec` : the conversion to an integer cuts off less than one.
-/

namespace Binary64

open Nat Int

variable {a b m j z : ℕ} {q r : ℚ}

/-! ### Magnitudes -/

theorem le_divNearest (hb : 0 < b) (h : z * b ≤ a) : z ≤ divNearest a b := by
  have hz : z ≤ a / b := (le_div_iff_mul_le hb).2 h
  unfold divNearest
  split_ifs <;> omega

theorem divNearest_le (hb : 0 < b) (h : a ≤ z * b) : divNearest a b ≤ z := by
  have hz : a / b ≤ z := Nat.div_le_of_le_mul (by rwa [Nat.mul_comm])
  rcases lt_or_eq_of_le hz with hlt | heq
  · unfold divNearest
    split_ifs <;> omega
  · -- the quotient is exact
    have hdiv := div_add_mod a b
    rw [heq, mul_comm] at hdiv
    unfold divNearest
    rw [if_pos (.inl (by omega)), heq]

theorem mul_two_pow_exponent_le (ha : 0 < a) {e : ℕ} (he : exponent a b = e) : b * 2 ^ e ≤ a := by
  unfold exponent at he
  simp only at he
  have hlow : 2 ^ a.log2 ≤ a := log2_self_le (by omega)
  have hhigh : b < 2 ^ (b.log2 + 1) := lt_log2_self
  split_ifs at he with hlt
  · calc b * 2 ^ e ≤ 2 ^ (b.log2 + 1) * 2 ^ e := mul_le_mul_right _ hhigh.le
      _ = 2 ^ a.log2 := by rw [← pow_add]; congr 1; omega
      _ ≤ a := hlow
  · rw [he] at hlt
    simpa using hlt

theorem roundMagnitude_eq (a b : ℕ) : roundMagnitude a b =
    divNearest (a * 2 ^ (-lastPlace a b).toNat) (b * 2 ^ (lastPlace a b).toNat) *
      2 ^ (lastPlace a b).toNat / 2 ^ (-lastPlace a b).toNat := by
  simp only [roundMagnitude, Rat.mkRat_eq_div]
  push_cast
  rfl

/-- A multiple of the last place. -/
theorem scale_lastPlace {k : ℤ} (hkj : k ≤ j) :
    m * 2 ^ ((j : ℤ) - k).toNat * 2 ^ k.toNat = m * 2 ^ j * 2 ^ (-k).toNat := by
  rw [Nat.mul_assoc, Nat.mul_assoc, ← pow_add, ← pow_add]
  congr 2
  omega

/-- A magnitude not below a value is not rounded below it. -/
theorem le_roundMagnitude (hb : 0 < b) (ha : 0 < a) (hm : m < 2 ^ 53) (h : m * 2 ^ j * b ≤ a) :
    (m * 2 ^ j : ℚ) ≤ roundMagnitude a b := by
  rw [roundMagnitude_eq]
  generalize hk : lastPlace a b = k
  rw [le_div_iff₀ (by positivity)]
  have hpos : 0 < b * 2 ^ k.toNat := by positivity
  by_cases hkj : k ≤ j
  · -- the value is a multiple of the last place
    have hle : m * 2 ^ ((j : ℤ) - k).toNat ≤ divNearest (a * 2 ^ (-k).toNat) (b * 2 ^ k.toNat) := by
      refine le_divNearest hpos ?_
      calc m * 2 ^ ((j : ℤ) - k).toNat * (b * 2 ^ k.toNat)
          = m * 2 ^ ((j : ℤ) - k).toNat * 2 ^ k.toNat * b := by ring
        _ = m * 2 ^ j * b * 2 ^ (-k).toNat := by rw [scale_lastPlace hkj]; ring
        _ ≤ a * 2 ^ (-k).toNat := mul_le_mul_right _ h
    have hmul := mul_le_mul_right (2 ^ k.toNat) hle
    rw [scale_lastPlace hkj] at hmul
    exact_mod_cast hmul
  · -- the significand has all its 53 bits
    have hzero : (-k).toNat = 0 := by omega
    rw [hzero, pow_zero, mul_one, pow_zero, mul_one]
    have he : exponent a b = (52 + k.toNat : ℕ) := by
      unfold lastPlace at hk
      omega
    have hle : 2 ^ 52 ≤ divNearest a (b * 2 ^ k.toNat) := by
      refine le_divNearest hpos ?_
      calc 2 ^ 52 * (b * 2 ^ k.toNat) = b * 2 ^ (52 + k.toNat) := by rw [pow_add]; ring
        _ ≤ a := mul_two_pow_exponent_le ha he
    have hmul : m * 2 ^ j ≤ divNearest a (b * 2 ^ k.toNat) * 2 ^ k.toNat := by
      calc m * 2 ^ j ≤ 2 ^ 53 * 2 ^ j := mul_le_mul_right _ hm.le
        _ = 2 ^ 52 * 2 ^ (j + 1) := by ring
        _ ≤ 2 ^ 52 * 2 ^ k.toNat :=
          Nat.mul_le_mul_left _ (Nat.pow_le_pow_right (by decide) (by omega))
        _ ≤ divNearest a (b * 2 ^ k.toNat) * 2 ^ k.toNat := mul_le_mul_right _ hle
    exact_mod_cast hmul

/-- A magnitude not above a value is not rounded above it. -/
theorem roundMagnitude_le (hb : 0 < b) (ha : 0 < a) (hm : m < 2 ^ 53) (h : a ≤ m * 2 ^ j * b) :
    roundMagnitude a b ≤ (m * 2 ^ j : ℚ) := by
  rw [roundMagnitude_eq]
  generalize hk : lastPlace a b = k
  rw [div_le_iff₀ (by positivity)]
  have hpos : 0 < b * 2 ^ k.toNat := by positivity
  have hkj : k ≤ j := by
    by_contra hlt
    have he : exponent a b = (52 + k.toNat : ℕ) := by
      unfold lastPlace at hk
      omega
    have hle := (mul_two_pow_exponent_le ha he).trans h
    have hlt' : m * 2 ^ j * b < b * 2 ^ (52 + k.toNat) := by
      calc m * 2 ^ j * b < 2 ^ 53 * 2 ^ j * b :=
            mul_lt_mul_of_pos_right (mul_lt_mul_of_pos_right hm (by positivity)) hb
        _ = b * 2 ^ (53 + j) := by rw [pow_add]; ring
        _ ≤ b * 2 ^ (52 + k.toNat) :=
          Nat.mul_le_mul_left _ (Nat.pow_le_pow_right (by decide) (by omega))
    omega
  have hle : divNearest (a * 2 ^ (-k).toNat) (b * 2 ^ k.toNat) ≤ m * 2 ^ ((j : ℤ) - k).toNat := by
    refine divNearest_le hpos ?_
    calc a * 2 ^ (-k).toNat ≤ m * 2 ^ j * b * 2 ^ (-k).toNat := mul_le_mul_right _ h
      _ = m * 2 ^ ((j : ℤ) - k).toNat * 2 ^ k.toNat * b := by rw [scale_lastPlace hkj]; ring
      _ = m * 2 ^ ((j : ℤ) - k).toNat * (b * 2 ^ k.toNat) := by ring
  have hmul := mul_le_mul_right (2 ^ k.toNat) hle
  rw [scale_lastPlace hkj] at hmul
  exact_mod_cast hmul

/-! ### Values -/

/-- **A number between two values is rounded to a finite value between them.** -/
theorem exists_ofRat {m' j' : ℕ} (hq : 0 < q) (hm : m < 2 ^ 53) (hm' : m' < 2 ^ 53)
    (hj' : j' ≤ 900) (hlow : (m * 2 ^ j : ℚ) ≤ q) (hhigh : q ≤ m' * 2 ^ j') :
    ∃ r, ofRat q = .fin r ∧ (m * 2 ^ j : ℚ) ≤ r ∧ r ≤ m' * 2 ^ j' := by
  have hnum : 0 < q.num := Rat.num_pos.2 hq
  have habs : (q.num.natAbs : ℚ) = q.num := by
    rw [← cast_natCast, natAbs_of_nonneg hnum.le]
  have hden : (0 : ℚ) < q.den := by exact_mod_cast q.den_pos
  have heq : q * q.den = q.num.natAbs := by rw [habs, Rat.mul_den_eq_num]
  have hlow' : m * 2 ^ j * q.den ≤ q.num.natAbs := by
    have h := mul_le_mul_of_nonneg_right hlow hden.le
    rw [heq] at h
    exact_mod_cast h
  have hhigh' : q.num.natAbs ≤ m' * 2 ^ j' * q.den := by
    have h := mul_le_mul_of_nonneg_right hhigh hden.le
    rw [heq] at h
    exact_mod_cast h
  have hle := le_roundMagnitude q.den_pos (by omega) hm hlow'
  have hge := roundMagnitude_le q.den_pos (by omega) hm' hhigh'
  refine ⟨_, ?_, hle, hge⟩
  rw [ofRat, if_neg hnum.ne']
  simp only [not_lt.2 hnum.le]
  generalize roundMagnitude q.num.natAbs q.den = r at hge
  refine if_neg fun hinf => ?_
  -- the bound is far below the overflow
  have hr : (2 ^ 1024 : ℚ) ≤ r := by
    have hrden : (0 : ℚ) < r.den := by exact_mod_cast r.den_pos
    have h : ((2 ^ 1024 : ℤ) * (r.den : ℤ) : ℚ) ≤ r.num := by exact_mod_cast hinf
    rw [← Rat.mul_den_eq_num] at h
    have h' := le_of_mul_le_mul_right h hrden
    exact_mod_cast h'
  have hlt : (m' * 2 ^ j' : ℚ) < 2 ^ 1024 := by
    calc (m' * 2 ^ j' : ℚ) ≤ 2 ^ 53 * 2 ^ j' := by
          refine mul_le_mul_of_nonneg_right ?_ (by positivity)
          exact_mod_cast hm'.le
      _ = 2 ^ (53 + j') := (pow_add _ _ _).symm
      _ < 2 ^ 1024 := pow_lt_pow_right₀ (by norm_num) (by omega)
  exact absurd (hr.trans hge) (not_le.2 hlt)

theorem ofRat_natCast (hm : m < 2 ^ 53) : ofRat m = .fin m := by
  rcases Nat.eq_zero_or_pos m with rfl | hpos
  · rw [ofRat, if_pos (by simp)]
    rfl
  · obtain ⟨r, hr, hlow, hhigh⟩ : ∃ r, ofRat m = .fin r ∧ (m * 2 ^ 0 : ℚ) ≤ r ∧ r ≤ m * 2 ^ 0 :=
      exists_ofRat (by exact_mod_cast hpos) hm hm (by omega) (by simp) (by simp)
    rw [pow_zero, mul_one] at hlow hhigh
    rw [hr, le_antisymm hhigh hlow]

theorem ofRat_of_nonpos (hq : q ≤ 0) : (∃ r ≤ 0, ofRat q = .fin r) ∨ ofRat q = .inf true := by
  rcases hq.lt_or_eq with hlt | rfl
  · have hnum : q.num < 0 := Rat.num_neg.2 hlt
    rw [ofRat, if_neg hnum.ne]
    simp only [hnum]
    split_ifs
    · exact .inr rfl
    · refine .inl ⟨_, ?_, rfl⟩
      rw [roundMagnitude_eq, neg_nonpos]
      positivity
  · exact .inl ⟨0, le_rfl, by rw [ofRat, if_pos Rat.num_zero]⟩

theorem ofNat_eq (hm : m < 2 ^ 53) : ofNat m = .fin m := ofRat_natCast hm

theorem toInt64_spec (hq : 0 ≤ q) (hlt : q < 2 ^ 63) :
    (toInt64 (.fin q) : ℚ) ≤ q ∧ q < toInt64 (.fin q) + 1 := by
  have hnum : 0 ≤ q.num := Rat.num_nonneg.2 hq
  have hfloor : q.num.tdiv q.den = ⌊q⌋ := by
    rw [tdiv_eq_ediv_of_nonneg hnum, Rat.floor_def']
  have h0 : 0 ≤ ⌊q⌋ := floor_nonneg.2 hq
  have h1 : ⌊q⌋ < 2 ^ 63 := floor_lt.2 (by exact_mod_cast hlt)
  have hcut : toInt64 (.fin q) = ⌊q⌋ := by
    simp only [toInt64]
    rw [hfloor, if_pos ⟨by omega, h1⟩]
  rw [hcut]
  exact ⟨floor_le q, lt_floor_add_one q⟩

end Binary64
