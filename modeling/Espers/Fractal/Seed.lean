import Espers.Fractal.Flameout
import Espers.Lib.Rounding

/-!
# The seed of the moves

The times are divided by the length of the text; the quotient is reduced to ten times the length at
most and raised to 2 at least.

* `seedTmp_ends` : **the loops end** if the times are not below the length.
* `seedTmp_stuck` : **they do not end** otherwise: what is not above zero cannot be raised.
* `moveFactor_nonneg` : the factor of the moves is not negative.
-/

namespace Espers

open Nat Binary64

variable {n : ℕ} {t : Clocks}

/-! ### The seed loops -/

variable {q : ℚ}

theorem lt_ofNat {m : ℕ} (hm : m < 2 ^ 53) : (fin q).lt (.ofNat m) = decide (q < m) := by
  rw [ofNat_eq hm, lt]

theorem ofNat_lt {m : ℕ} (hm : m < 2 ^ 53) :
    (ofNat m).lt (.fin q) = decide ((m : ℚ) < q) := by
  rw [ofNat_eq hm, lt]

/-- The seed is reduced to ten times the length at most, and stays at least 1. -/
theorem reduceSeed_ends (hn : 0 < n) (hn' : n < 2 ^ 40) {j : ℕ} (hj : j ≤ 64) (hq : 1 ≤ q)
    (hle : q ≤ 2 ^ j) :
    ∃ r : ℚ, Loop.Ends (reduceSeed n) (.fin q) (.fin r) ∧ 1 ≤ r ∧ r ≤ 10 * n := by
  have hnq : (1 : ℚ) ≤ n := by exact_mod_cast hn
  have hlt : (ofNat (n * 10)).lt (.fin q) = decide ((n * 10 : ℚ) < q) := by
    rw [ofNat_lt (by omega)]
    push_cast
    rfl
  by_cases hexit : q ≤ n * 10
  · refine ⟨q, Loop.ends_of_exit ?_, hq, by linarith⟩
    rw [reduceSeed, hlt, decide_eq_false (not_lt.2 hexit), if_neg Bool.false_ne_true]
  · rw [not_le] at hexit
    -- a tenth is below an eighth, so the bound on the exponent decreases
    induction j generalizing q with
    | zero =>
      linarith
    | succ j ih =>
      have hpow : (2 : ℚ) ^ (j + 1) = 2 * 2 ^ j := by rw [pow_succ, mul_comm]
      obtain ⟨r, hr, hlow, hhigh⟩ : ∃ r, ofRat (q / 10) = .fin r ∧
          (n * 2 ^ 0 : ℚ) ≤ r ∧ r ≤ (1 : ℕ) * 2 ^ j := by
        refine exists_ofRat (by linarith) (by omega) (by decide) (by omega) ?_ ?_
        · rw [pow_zero, mul_one]
          linarith
        · rw [cast_one, one_mul]
          linarith
      rw [cast_one, one_mul] at hhigh
      have hstep : reduceSeed n (.fin q) = .inl (.fin r) := by
        rw [reduceSeed, hlt, decide_eq_true hexit, if_pos rfl, ofNat_eq (by decide),
          div, if_neg (by decide), ← hr]
        rfl
      by_cases hdone : r ≤ n * 10
      · refine ⟨r, (Loop.ends_iff_of_next hstep).2 (Loop.ends_of_exit ?_), by linarith, by linarith⟩
        rw [reduceSeed, ofNat_lt (by omega), decide_eq_false, if_neg Bool.false_ne_true]
        push_cast
        exact not_lt.2 hdone
      · obtain ⟨r', hends, hbounds⟩ := ih (by omega) (by linarith) hhigh (by
          rw [ofNat_lt (by omega)]
          push_cast
          rfl) (not_le.1 hdone)
        exact ⟨r', (Loop.ends_iff_of_next hstep).2 hends, hbounds⟩

/-- A seed that is at least 1 is raised to at least 2. -/
theorem raiseSeed_ends (hq : 1 ≤ q) :
    ∃ r : ℚ, Loop.Ends raiseSeed (.fin q) (.fin r) ∧ 2 ≤ r ∧ (r = q ∨ r ≤ 20) := by
  by_cases hexit : 2 ≤ q
  · refine ⟨q, Loop.ends_of_exit ?_, hexit, .inl rfl⟩
    rw [raiseSeed, lt_ofNat (by decide), decide_eq_false, if_neg Bool.false_ne_true]
    exact not_lt.2 hexit
  · rw [not_le] at hexit
    obtain ⟨r, hr, hlow, hhigh⟩ : ∃ r, ofRat (q * 10) = .fin r ∧
        ((10 : ℕ) * 2 ^ 0 : ℚ) ≤ r ∧ r ≤ (20 : ℕ) * 2 ^ 0 := by
      refine exists_ofRat (by linarith) (by decide) (by decide) (by decide) ?_ ?_ <;>
      · push_cast
        linarith
    push_cast at hlow hhigh
    have hstep : raiseSeed (.fin q) = .inl (.fin r) := by
      rw [raiseSeed, lt_ofNat (by decide), decide_eq_true (by exact_mod_cast hexit), if_pos rfl,
        ofNat_eq (by decide), mul, ← hr]
      rfl
    refine ⟨r, (Loop.ends_iff_of_next hstep).2 (Loop.ends_of_exit ?_), by linarith,
      .inr (by linarith)⟩
    rw [raiseSeed, lt_ofNat (by decide), decide_eq_false, if_neg Bool.false_ne_true]
    push_cast
    linarith

/-- The seed loops end if the times are not below the length. -/
theorem seedTmp_ends (hn : 0 < n) (hn' : n < 2 ^ 40) (h : (n : ℤ) ≤ (t.seed_1 + t.seed_2).toInt) :
    ∃ (fuel : ℕ) (q : ℚ), (∀ k, fuel ≤ k → seedTmp k t n = .ok (.fin q)) ∧ 2 ≤ q ∧
      q ≤ 10 * n + 20 := by
  have hnz : (0 : ℤ) < n := by exact_mod_cast hn
  have hquot : t.quotient n = (t.seed_1 + t.seed_2).toInt / n :=
    Int.tdiv_eq_ediv_of_nonneg (hnz.le.trans h)
  have hone : 1 ≤ t.quotient n := by
    rw [hquot, Int.le_ediv_iff_mul_le hnz, one_mul]
    exact h
  have hmax : t.quotient n ≤ 2 ^ 63 := by
    rw [hquot]
    have hlt := Int64.toInt_lt (t.seed_1 + t.seed_2)
    exact (Int.ediv_le_self _ (hnz.le.trans h)).trans hlt.le
  obtain ⟨q0, hq0, hlow0, hhigh0⟩ : ∃ r, ofRat (t.quotient n) = .fin r ∧
      ((1 : ℕ) * 2 ^ 0 : ℚ) ≤ r ∧ r ≤ (1 : ℕ) * 2 ^ 63 := by
    refine exists_ofRat ?_ (by decide) (by decide) (by decide) ?_ ?_
    · exact_mod_cast hone
    · rw [cast_one, pow_zero, mul_one]
      exact_mod_cast hone
    · rw [cast_one, one_mul]
      exact_mod_cast hmax
  rw [cast_one, pow_zero, mul_one] at hlow0
  rw [cast_one, one_mul] at hhigh0
  obtain ⟨q1, ⟨k1, hk1⟩, hlow1, hhigh1⟩ := reduceSeed_ends hn hn' (by decide) hlow0 hhigh0
  obtain ⟨q2, ⟨k2, hk2⟩, hlow2, hhigh2⟩ := raiseSeed_ends hlow1
  refine ⟨max k1 k2, q2, fun k hk => ?_, hlow2, ?_⟩
  · rw [seedTmp, if_neg hn.ne', hq0, Loop.run_mono (by omega) hk1]
    change withinFuel (Loop.run raiseSeed k (.fin q1)) = _
    rw [Loop.run_mono (by omega) hk2]
    rfl
  · have hnq : (0 : ℚ) ≤ n := cast_nonneg n
    rcases hhigh2 with rfl | hle <;> linarith

/-- What is not above zero is not raised above it. -/
theorem raiseSeed_stuck {r : Binary64} {s : Binary64} (hs : (∃ q ≤ 0, s = .fin q) ∨ s = .inf true) :
    ¬Loop.Ends raiseSeed s r := by
  refine Loop.not_ends_of_invariant (fun s => (∃ q ≤ 0, s = .fin q) ∨ s = .inf true) ?_ hs
  rintro s (⟨q, hq, rfl⟩ | rfl)
  · refine ⟨.ofRat (q * 10), ?_, ?_⟩
    · have hlt : q < (2 : ℕ) := by
        push_cast
        linarith
      rw [raiseSeed, lt_ofNat (by decide), decide_eq_true hlt, if_pos rfl,
        ofNat_eq (by decide)]
      rfl
    · rcases ofRat_of_nonpos (show q * 10 ≤ 0 by linarith) with ⟨r, hr, heq⟩ | heq
      · exact .inl ⟨r, hr, heq⟩
      · exact .inr heq
  · refine ⟨.inf true, ?_, .inr rfl⟩
    rw [raiseSeed, ofNat_eq (by decide), ofNat_eq (by decide)]
    rfl

/-- The second seed loop does not end if the times are below the length. -/
theorem seedTmp_stuck (hn : 0 < n) (hn' : n < 2 ^ 40) (h : (t.seed_1 + t.seed_2).toInt < n)
    (fuel : ℕ) : seedTmp fuel t n = .error .outOfFuel := by
  have hquot : t.quotient n ≤ 0 := by
    rcases lt_or_ge (t.seed_1 + t.seed_2).toInt 0 with hneg | hpos
    · rw [Clocks.quotient, ← neg_neg (t.seed_1 + t.seed_2).toInt, Int.neg_tdiv]
      exact neg_nonpos.2 (Int.tdiv_nonneg (neg_nonneg.2 hneg.le) (Int.natCast_nonneg n))
    · rw [Clocks.quotient, Int.tdiv_eq_zero_of_lt hpos h]
  have hlow := ofRat_of_nonpos (show (t.quotient n : ℚ) ≤ 0 by exact_mod_cast hquot)
  have hexit : reduceSeed n (.ofRat (t.quotient n)) = .inr (.ofRat (t.quotient n)) := by
    rcases hlow with ⟨r, hr, heq⟩ | heq
    · rw [heq, reduceSeed, ofNat_lt (by omega), decide_eq_false, if_neg Bool.false_ne_true]
      have hnq : (0 : ℚ) ≤ (n * 10 : ℕ) := cast_nonneg _
      exact not_lt.2 (hr.trans hnq)
    · rw [heq, reduceSeed, ofNat_eq (by omega)]
      rfl
  rw [seedTmp, if_neg hn.ne']
  cases fuel with
  | zero => rfl
  | succ k =>
    rw [Loop.run_of_exit hexit]
    change withinFuel (Loop.run raiseSeed (k + 1) _) = _
    cases hrun : Loop.run raiseSeed (k + 1) (.ofRat (t.quotient n)) with
    | none => rfl
    | some r => exact absurd ⟨_, hrun⟩ (raiseSeed_stuck hlow)

/-- The moves are multiples of a number that is not negative. -/
theorem moveFactor_nonneg (hn : 0 < n) (hn' : n < 2 ^ 40) (hq : 2 ≤ q)
    (hq' : q ≤ 10 * n + 20) : 0 ≤ moveFactor (.fin q) n := by
  have hnq : (1 : ℚ) ≤ n := by exact_mod_cast hn
  have hhalf : ((n / 2 : ℕ) : ℚ) ≤ n := by exact_mod_cast div_le_self n 2
  have hcast : ((11 * n + 20 : ℕ) : ℚ) = 11 * n + 20 := by push_cast; rfl
  have hbig : (22 * n + 40 : ℚ) < 2 ^ 63 := by
    exact_mod_cast (show 22 * n + 40 < 2 ^ 63 by omega)
  -- the shift is at least 2
  obtain ⟨r, hr, hlow, hhigh⟩ : ∃ r, ofRat (q + (n / 2 : ℕ)) = .fin r ∧
      ((2 : ℕ) * 2 ^ 0 : ℚ) ≤ r ∧ r ≤ (11 * n + 20 : ℕ) * 2 ^ 0 := by
    refine exists_ofRat (by linarith) (by decide) (by omega) (by decide) ?_ ?_
    · push_cast
      linarith
    · rw [hcast, pow_zero, mul_one]
      linarith
  rw [pow_zero, mul_one] at hlow hhigh
  have hshift : preShift (.fin q) n = (fin r).toInt64 := by
    rw [preShift, ofNat_eq (by omega), ← hr]
    rfl
  obtain ⟨hcut, hcut'⟩ := toInt64_spec (show 0 ≤ r by push_cast at hlow; linarith)
    (by rw [hcast] at hhigh; linarith)
  rw [← hshift] at hcut hcut'
  obtain ⟨m, hm⟩ : ∃ m : ℕ, preShift (.fin q) n - 1 = m := by
    refine ⟨(preShift (.fin q) n - 1).toNat, (Int.toNat_of_nonneg ?_).symm⟩
    have h : (1 : ℚ) < preShift (.fin q) n + 1 := by push_cast at hlow; linarith
    have h' : (1 : ℤ) < preShift (.fin q) n + 1 := by exact_mod_cast h
    omega
  have hmr : (m : ℚ) + 1 ≤ 11 * n + 20 := by
    have h : ((preShift (.fin q) n : ℤ) : ℚ) = m + 1 := by
      rw [show preShift (.fin q) n = (m : ℤ) + 1 by omega]
      push_cast
      rfl
    rw [← h, ← hcast]
    exact hcut.trans hhigh
  have hm' : m < 2 ^ 53 := by
    have h : m + 1 ≤ 11 * n + 20 := by exact_mod_cast hmr
    omega
  -- the pivot is the integer part of a quotient of positive numbers
  obtain ⟨r2, hr2, hlow2, hhigh2⟩ : ∃ r, ofRat (m + q) = .fin r ∧
      ((1 : ℕ) * 2 ^ 0 : ℚ) ≤ r ∧ r ≤ (22 * n + 40 : ℕ) * 2 ^ 0 := by
    refine exists_ofRat (by linarith) (by decide) (by omega) (by decide) ?_ ?_ <;>
    · push_cast
      linarith
  push_cast at hlow2 hhigh2
  obtain ⟨r3, hr3, hlow3, hhigh3⟩ : ∃ r, ofRat (r2 / n) = .fin r ∧
      ((0 : ℕ) * 2 ^ 0 : ℚ) ≤ r ∧ r ≤ (22 * n + 40 : ℕ) * 2 ^ 0 := by
    refine exists_ofRat (by positivity) (by decide) (by omega) (by decide) ?_ ?_
    · rw [cast_zero, zero_mul]
      positivity
    · rw [pow_zero, mul_one, div_le_iff₀ (by linarith)]
      push_cast
      nlinarith
  rw [cast_zero, zero_mul] at hlow3
  push_cast at hhigh3
  have hpivot : prePivot (.fin q) n = (fin r3).toInt64 := by
    have hn0 : ((n : ℚ)).num ≠ 0 := by
      rw [Rat.num_natCast]
      omega
    rw [prePivot, hm, Int.cast_natCast, ofRat_natCast hm', ofNat_eq (by omega)]
    change toInt64 ((ofRat (m + q)).div _) = _
    rw [hr2, div, if_neg hn0, hr3]
  obtain ⟨-, hcut3⟩ := toInt64_spec hlow3 (by linarith)
  rw [← hpivot] at hcut3
  have hpos : (0 : ℤ) < prePivot (.fin q) n + 1 := by
    have h : (0 : ℚ) < prePivot (.fin q) n + 1 := by linarith
    exact_mod_cast h
  rw [moveFactor]
  omega

/-- More rounds do not change the seed. -/
theorem seedTmp_mono {k k' : ℕ} (hk : k ≤ k') {s : Binary64} (h : seedTmp k t n = .ok s) :
    seedTmp k' t n = .ok s := by
  unfold seedTmp at h ⊢
  split_ifs at h ⊢ with hn
  cases h1 : Loop.run (reduceSeed n) k (.ofRat (t.quotient n)) with
  | none =>
    rw [h1] at h
    cases h
  | some s1 =>
    rw [h1] at h
    rw [Loop.run_mono hk h1]
    change withinFuel (Loop.run raiseSeed k s1) = .ok s at h
    change withinFuel (Loop.run raiseSeed k' s1) = .ok s
    cases h2 : Loop.run raiseSeed k s1 with
    | none =>
      rw [h2] at h
      cases h
    | some s2 =>
      rw [h2] at h
      rw [Loop.run_mono hk h2]
      exact h

end Espers
