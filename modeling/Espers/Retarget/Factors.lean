import Espers.Retarget.Rules
import Mathlib.Tactic.Ring

/-!
# The factors of Terminal-Velocity

`VRX_Simulate_Retarget` divides by `difficultyfactor`, ten thousand times the average in whole
numbers. It runs once in every round of the extended curve, which divides the average by 2, 3, 4, …,
and once more at the end.

* `Arithmetic.factors` : the values of `difficultyfactor` that a call of `VRX_Retarget` divides by,
  with the factors in double precision (`Arithmetic.double`) or exact (`Arithmetic.exact`).
* `vrxRetarget_divides_iff` : in double precision, the call throws if and only if one of them is
  zero.
* `Arithmetic.Adequate.factors_pos_iff` : **all of them are positive unless the curve starts at one
  half and runs for six rounds** (`Starved`): a sixth round divides one half by 5040.
* `vrxFactors_pos_iff` : the same for exact factors.
-/

namespace Espers

open Exec List

/-! ### The source -/

/-- The arithmetic that the factors are computed in. -/
structure Arithmetic (F : Type) where
  /-- `n / 4`. -/
  quarters : ℕ → F
  ofNat : ℕ → F
  add : F → F → F
  mul : F → F → F
  div : F → F → F
  lt : F → F → Bool
  /-- The conversion to `int64_t`. -/
  trunc : F → ℤ

namespace Arithmetic

/-- Double precision. -/
def double : Arithmetic Binary64 where
  quarters := Binary64.quarters
  ofNat := Binary64.ofNat
  add := Binary64.add
  mul := Binary64.mul
  div := Binary64.div
  lt := Binary64.lt
  trunc := Binary64.toInt64

/-- Exact rational numbers. -/
def exact : Arithmetic ℚ where
  quarters n := n / 4
  ofNat n := n
  add a b := a + b
  mul a b := a * b
  div a b := a / b
  lt a b := decide (a < b)
  trunc q := q.num.tdiv q.den

variable {F : Type} (A : Arithmetic F)

/-- `TerminalAverage` after `VRX_BaseEngine`: `VLF1` to `VLF5` are the factors for `VLrate1` to
`VLrate5`. -/
def average (e : Engine) : F :=
  let vlf (n : ℕ) : F := A.quarters (roundFactor (e.vlRate n))
  A.div (A.add (A.add (A.add (A.add (vlf 1) (vlf 2)) (vlf 3)) (vlf 4)) (vlf 5)) (A.ofNat 5)

/-- The skew for the less selected block type. -/
def skew (e : Engine) (fProofOfStake : Bool) (a : F) : F :=
  let third := A.div a (A.ofNat 3)
  let a :=
    if e.prevPoW < e.prevPoS ∧ fProofOfStake = false then
      if e.prevPoS - e.prevPoW > 3 then third else a
    else if e.prevPoW > e.prevPoS ∧ fProofOfStake = true then
      if e.prevPoW - e.prevPoS > 3 then third else a
    else a
  if A.lt a (A.quarters 2) then A.quarters 2 else a

/-- `difficultyfactor` in `VRX_Simulate_Retarget`. -/
def difficultyfactor (a : F) : ℤ := A.trunc (A.mul (A.ofNat 10000) a)

/-- A simulated retarget and what follows it.  A run is the list of the factors it divides by and
the average it leaves, if it does not end the call; a division by zero ends it. -/
def simulated (a : F) (rest : List ℤ × Option F) : List ℤ × Option F :=
  if A.difficultyfactor a = 0 then ([0], none) else (A.difficultyfactor a :: rest.1, rest.2)

/-- The loop of the extended curve, for the given number of tests. -/
def curveLoop (low : Bool) (difTime : ℕ) : ℕ → ℕ → ℕ → F → List ℤ × Option F
  | 0, _, _, _ => ([], none)
  | n + 1, minuteRounds, difCurve, a =>
    if difTime > minuteRounds * 60 then
      if low then ([], some a)
      -- the target is reset
      else if minuteRounds > 5 + 15 then ([], none)
      else
        let a := A.div a (A.ofNat difCurve)
        A.simulated a (curveLoop low difTime n (minuteRounds + 1) (difCurve + 1) a)
    else ([], some a)

/-- The standard curve. -/
def hours (difTime : ℕ) (a : F) : F :=
  [0, 1, 2, 3].foldl (fun a n => if difTime > (1 + n) * 60 * 60 then A.div a (A.ofNat 2) else a) a

/-- The curve of `VRX_ThreadCurve`, from the swing patch on. -/
def curve (low : Bool) (pindexLast type : Branch) (a : F) : List ℤ × Option F :=
  match pindexLast, type with
  | b :: prev :: _, t :: tprev :: _ =>
    if b.nTime > vrxV36 then
      let difTime := subTime b.nTime t.nTime
      let difTime :=
        if b.nTime > vrxV37 then (difTime + subTime b.nTime prev.nTime) % 2 ^ 64 else difTime
      A.curveLoop low difTime 7 15 2 a
    else ([], some (A.hours (subTime t.nTime tprev.nTime) a))
  | _, _ => ([], none)

/-- The end of `VRX_Retarget` after a run of the curve: one more simulation, unless the call is
over. -/
def finish : List ℤ × Option F → List ℤ
  | (factors, some a) => factors ++ [A.difficultyfactor a]
  | (factors, none) => factors

/-- **The factors that a call of `VRX_Retarget` divides by**, in order; before the swing patch a
reset that an earlier call asked for is still in force. -/
def factors (tip : Tip) (fProofOfStake fCRVreset : Bool) (pindexLast : Branch) : List ℤ :=
  match pindexLast with
  | [] => []
  | b :: below =>
    if b.nHeight < scanheight ∨ resetHeight tip.nBestHeight = true then []
    else
      match scanBlocks tip.pindexBest.nTime fProofOfStake (scanheight - 1)
          (.base b.nTime (b :: below)) with
      | none => []
      | some e =>
        let a := A.average e
        let a := if tip.nBestHeight > sysUpgrade01 then A.skew e fProofOfStake a else a
        if tip.pindexBest.nTime > swingPatch then
          A.finish (A.curve (lowDifficulty tip fProofOfStake) (b :: below)
            (getLastBlockIndex fProofOfStake (b :: below)) a)
        else if fCRVreset then []
        else A.finish ([], some a)

end Arithmetic

/-- The time that the extended curve compares with its minutes. -/
def extendedTime (pindexLast type : Branch) : ℕ :=
  match pindexLast, type with
  | b :: prev :: _, t :: _ =>
    if b.nTime > vrxV37 then (subTime b.nTime t.nTime + subTime b.nTime prev.nTime) % 2 ^ 64
    else subTime b.nTime t.nTime
  | _, _ => 0

/-- The curve starts at one half: five long spacings, or five blocks of the other type and an
average of three halves at most, which the skew cuts down to one half. -/
def StartsAtHalf (tip : Tip) (fProofOfStake : Bool) (pindexLast : Branch) : Prop :=
  quarterSum pindexLast = 10 ∨ tip.nBestHeight > sysUpgrade01 ∧ tip.pindexBest.nTime > swingPatch ∧
      othersOnly fProofOfStake pindexLast = true ∧ quarterSum pindexLast ≤ 30

/-- The call is not a dry run, the extended curve is in force and makes six rounds, and it starts at
one half. -/
structure Starved (tip : Tip) (fProofOfStake : Bool) (pindexLast : Branch) : Prop where
  /-- The branch is long enough to be scanned. -/
  scanned : 6 ≤ pindexLast.length
  height : ∀ b ∈ pindexLast.head?, scanheight ≤ b.nHeight
  notReset : resetHeight tip.nBestHeight = false
  /-- The last block of the type has a parent. -/
  typed : 2 ≤ (getLastBlockIndex fProofOfStake pindexLast).length
  swing : tip.pindexBest.nTime > swingPatch
  extended : ∀ b ∈ pindexLast.head?, b.nTime > vrxV36
  notLow : lowDifficulty tip fProofOfStake = false
  late : 20 * 60 < extendedTime pindexLast (getLastBlockIndex fProofOfStake pindexLast)
  half : StartsAtHalf tip fProofOfStake pindexLast

/-! ### What the curve starts from -/

namespace Arithmetic

variable {F : Type} (A : Arithmetic F)

/-- The average of factors that sum up to `n` quarters, after the skew if it is in force. -/
def start (skewed others : Bool) (n : ℕ) : F :=
  let a := A.div (A.quarters n) (A.ofNat 5)
  if skewed then
    let a := if others then A.div a (A.ofNat 3) else a
    if A.lt a (A.quarters 2) then A.quarters 2 else a
  else a

/-- The average after `k` rounds of the extended curve. -/
def dropped (a : F) : ℕ → F
  | 0 => a
  | k + 1 => A.div (dropped a k) (A.ofNat (k + 2))

/-- The average after `k` steps of the standard curve. -/
def halved (a : F) : ℕ → F
  | 0 => a
  | k + 1 => A.div (halved a k) (A.ofNat 2)

/-- The skew cuts the average down to one half, or it was no more. -/
def atHalf (skewed others : Bool) (n : ℕ) : Bool := n == 10 || skewed && others && decide (n ≤ 30)

/-- The arithmetic is good enough: sums of quarters are exact, and up to six rounds of the curve
leave ten thousand times the average at one or more, but for six rounds from one half. -/
structure Adequate : Prop where
  quarters_add : ∀ m ≤ 32, ∀ n ≤ 8, A.add (A.quarters m) (A.quarters n) = A.quarters (m + n)
  rounds : ∀ skewed others n, 10 ≤ n → n ≤ 40 → ∀ k ≤ 6,
    (1 ≤ A.difficultyfactor (A.dropped (A.start skewed others n) k) ↔
      ¬ (k = 6 ∧ atHalf skewed others n = true))
  nonneg : ∀ skewed others n, 10 ≤ n → n ≤ 40 → ∀ k ≤ 6,
    0 ≤ A.difficultyfactor (A.dropped (A.start skewed others n) k)
  hours : ∀ skewed others n, 10 ≤ n → n ≤ 40 → ∀ k ≤ 4,
    1 ≤ A.difficultyfactor (A.halved (A.start skewed others n) k)

theorem adequate_of_check
    (hadd : ∀ m n, m ≤ 32 → n ≤ 8 → A.add (A.quarters m) (A.quarters n) = A.quarters (m + n))
    (hrounds : ∀ (skewed others : Bool) (n : Fin 31) (k : Fin 7),
      (1 ≤ A.difficultyfactor (A.dropped (A.start skewed others (n + 10)) k) ↔
        ¬ ((k : ℕ) = 6 ∧ atHalf skewed others (n + 10) = true)) ∧
      0 ≤ A.difficultyfactor (A.dropped (A.start skewed others (n + 10)) k))
    (hhours : ∀ (skewed others : Bool) (n : Fin 31) (k : Fin 5),
      1 ≤ A.difficultyfactor (A.halved (A.start skewed others (n + 10)) k)) : A.Adequate := by
  refine ⟨fun m hm n hn => hadd m n hm hn, fun sk ot n h10 h40 k hk => ?_,
    fun sk ot n h10 h40 k hk => ?_, fun sk ot n h10 h40 k hk => ?_⟩
  · have h := (hrounds sk ot ⟨n - 10, by omega⟩ ⟨k, by omega⟩).1
    simpa only [Nat.sub_add_cancel h10] using h
  · have h := (hrounds sk ot ⟨n - 10, by omega⟩ ⟨k, by omega⟩).2
    simpa only [Nat.sub_add_cancel h10] using h
  · have h := hhours sk ot ⟨n - 10, by omega⟩ ⟨k, by omega⟩
    simpa only [Nat.sub_add_cancel h10] using h

theorem double_adequate : double.Adequate := by
  refine adequate_of_check _ (fun m n hm hn => Binary64.quarters_add hm hn) ?_ ?_
  · decide +kernel
  · decide +kernel

theorem exact_adequate : exact.Adequate := by
  refine adequate_of_check _ (fun m n _ _ => ?_) ?_ ?_
  · simp only [exact]
    push_cast
    ring
  · decide +kernel
  · decide +kernel

/-! ### The curve -/

section Curve

variable {A} {s : F} {low : Bool} {difTime : ℕ}

theorem finish_simulated (a : F) (c : List ℤ × Option F) :
    (∀ d ∈ A.finish (A.simulated a c), 1 ≤ d) ↔
      1 ≤ A.difficultyfactor a ∧ ∀ d ∈ A.finish c, 1 ≤ d := by
  unfold simulated
  by_cases h0 : A.difficultyfactor a = 0
  · rw [if_pos h0, h0]
    simp [finish]
  · rw [if_neg h0]
    obtain ⟨factors, o⟩ := c
    cases o with
    | none => simp [finish]
    | some a' => simp [finish]

theorem mem_finish_simulated {a : F} {c : List ℤ × Option F} {d : ℤ}
    (h : d ∈ A.finish (A.simulated a c)) : d = A.difficultyfactor a ∨ d ∈ A.finish c := by
  unfold simulated at h
  by_cases h0 : A.difficultyfactor a = 0
  · rw [if_pos h0] at h
    exact .inl (by simpa [finish, h0] using h)
  · rw [if_neg h0] at h
    obtain ⟨factors, o⟩ := c
    cases o with
    | none => simpa [finish] using h
    | some a' => simpa [finish] using h

theorem round_eq {r : ℕ} (hr : r ≤ 5) :
    A.div (A.dropped s (6 - (r + 1))) (A.ofNat (8 - (r + 1))) = A.dropped s (6 - r) ∧
      21 - (r + 1) + 1 = 21 - r ∧ 8 - (r + 1) + 1 = 8 - r := by
  refine ⟨?_, by omega, by omega⟩
  obtain ⟨k, hk⟩ : ∃ k, 6 - r = k + 1 := ⟨5 - r, by omega⟩
  rw [hk, dropped, show 6 - (r + 1) = k by omega, show 8 - (r + 1) = k + 2 by omega]

/-- After `6 - r` rounds, the factors to come are positive unless all six rounds are made and the
sixth divides too much. -/
theorem curveLoop_pos (hgood : ∀ k ≤ 5, 1 ≤ A.difficultyfactor (A.dropped s k)) {r : ℕ} (hr : r ≤ 6)
    (hnow : 1 ≤ A.difficultyfactor (A.dropped s (6 - r))) :
    (∀ d ∈ A.finish (A.curveLoop low difTime (r + 1) (21 - r) (8 - r) (A.dropped s (6 - r))),
    1 ≤ d) ↔ r = 0 ∨ low = true ∨ difTime ≤ 20 * 60 ∨ 1 ≤ A.difficultyfactor (A.dropped s 6) := by
  induction r with
  | zero =>
    have hend : ∀ d ∈ A.finish ([], some (A.dropped s 6)), 1 ≤ d := by simpa [finish] using hnow
    simp only [true_or, iff_true, curveLoop]
    split_ifs
    · exact hend
    · simp [finish]
    · omega
    · exact hend
  | succ r ih =>
    have hend : ∀ d ∈ A.finish ([], some (A.dropped s (6 - (r + 1)))), 1 ≤ d := by
      simpa [finish] using hnow
    rw [curveLoop]
    by_cases hd : difTime > (21 - (r + 1)) * 60
    · rw [if_pos hd]
      cases low with
      | true => simpa using hend
      | false =>
        obtain ⟨hstep, hm, hc⟩ := round_eq (A := A) (s := s) (r := r) (by omega)
        simp only [Bool.false_eq_true, if_false, false_or]
        rw [if_neg (by omega), finish_simulated, hstep, hm, hc]
        rcases Nat.eq_zero_or_pos r with rfl | hpos
        · -- the sixth round
          constructor
          · rintro ⟨h6, -⟩
            exact .inr (.inr h6)
          · rintro (h | h | h)
            · omega
            · omega
            · exact ⟨h, (ih (by omega) h).2 (.inl rfl)⟩
        · have hnext := hgood (6 - r) (by omega)
          rw [ih (by omega) hnext]
          simp only [Bool.false_eq_true, false_or]
          constructor
          · rintro ⟨-, h⟩
            omega
          · intro h
            exact ⟨hnext, by omega⟩
    · rw [if_neg hd]
      exact ⟨fun _ => .inr (.inr (.inl (by omega))), fun _ => hend⟩

/-- What the curve divides by is the average after some of its six rounds. -/
theorem curveLoop_dropped {r : ℕ} (hr : r ≤ 6) {d : ℤ}
    (hd : d ∈ A.finish (A.curveLoop low difTime (r + 1) (21 - r) (8 - r) (A.dropped s (6 - r)))) :
    ∃ k ≤ 6, d = A.difficultyfactor (A.dropped s k) := by
  have hend : ∀ k ≤ 6, d ∈ A.finish ([], some (A.dropped s k)) →
      ∃ k ≤ 6, d = A.difficultyfactor (A.dropped s k) := by
    intro k hk hmem
    exact ⟨k, hk, by simpa [finish] using hmem⟩
  induction r with
  | zero =>
    simp only [curveLoop] at hd
    split_ifs at hd
    · exact hend 6 le_rfl hd
    · simp [finish] at hd
    · omega
    · exact hend 6 le_rfl hd
  | succ r ih =>
    rw [curveLoop] at hd
    by_cases ht : difTime > (21 - (r + 1)) * 60
    · rw [if_pos ht] at hd
      cases low with
      | true => exact hend _ (by omega) hd
      | false =>
        obtain ⟨hstep, hm, hc⟩ := round_eq (A := A) (s := s) (r := r) (by omega)
        simp only [Bool.false_eq_true, if_false] at hd
        rw [if_neg (by omega), hstep, hm, hc] at hd
        rcases mem_finish_simulated hd with h | h
        · exact ⟨6 - r, by omega, h⟩
        · exact ih (by omega) h
    · rw [if_neg ht] at hd
      exact hend _ (by omega) hd

theorem hours_eq_halved (difTime : ℕ) (s : F) : ∃ k ≤ 4, A.hours difTime s = A.halved s k := by
  have hfold : ∀ (l : List ℕ) (k : ℕ), ∃ j ≤ k + l.length,
      l.foldl (fun a n => if difTime > (1 + n) * 60 * 60 then A.div a (A.ofNat 2) else a)
        (A.halved s k) = A.halved s j := by
    intro l
    induction l with
    | nil => exact fun k => ⟨k, le_rfl, rfl⟩
    | cons n l ih =>
      intro k
      rw [foldl_cons, length_cons]
      by_cases hd : difTime > (1 + n) * 60 * 60
      · rw [if_pos hd]
        obtain ⟨j, hj, h⟩ := ih (k + 1)
        exact ⟨j, by omega, h⟩
      · rw [if_neg hd]
        obtain ⟨j, hj, h⟩ := ih k
        exact ⟨j, by omega, h⟩
  exact hfold [0, 1, 2, 3] 0

end Curve

/-! ### The average -/

theorem scanBlocks_rates (bestTime : ℕ) (f : Bool) (b0 b1 b2 b3 b4 b5 : Stamp) (rest : Branch)
    {e : Engine} (h : scanBlocks bestTime f 5
      (.base b0.nTime (b0 :: b1 :: b2 :: b3 :: b4 :: b5 :: rest)) = some e) :
    e.vlRate 1 = b0.nTime - b1.nTime ∧ e.vlRate 2 = b1.nTime - b2.nTime ∧
      e.vlRate 3 = b2.nTime - b3.nTime ∧ e.vlRate 4 = b3.nTime - b4.nTime ∧
      e.vlRate 5 = b4.nTime - b5.nTime := by
  simp only [scanBlocks, Engine.base, Engine.scan, Option.some.injEq] at h
  subst h
  simp [Function.update]

theorem Adequate.average_eq (hA : A.Adequate) (b0 b1 b2 b3 b4 b5 : Stamp)
    (rest : Branch) {e : Engine} {bestTime : ℕ} {f : Bool} (h : scanBlocks bestTime f 5
      (.base b0.nTime (b0 :: b1 :: b2 :: b3 :: b4 :: b5 :: rest)) = some e) :
    A.average e = A.div (A.quarters (quarterSum (b0 :: b1 :: b2 :: b3 :: b4 :: b5 :: rest)))
      (A.ofNat 5) := by
  obtain ⟨h1, h2, h3, h4, h5⟩ := scanBlocks_rates _ _ _ _ _ _ _ _ _ h
  have r1 := roundFactor_range (b0.nTime - b1.nTime)
  have r2 := roundFactor_range (b1.nTime - b2.nTime)
  have r3 := roundFactor_range (b2.nTime - b3.nTime)
  have r4 := roundFactor_range (b3.nTime - b4.nTime)
  have r5 := roundFactor_range (b4.nTime - b5.nTime)
  simp only [average, h1, h2, h3, h4, h5, quarterSum]
  rw [hA.quarters_add _ (by omega) _ (by omega), hA.quarters_add _ (by omega) _ (by omega),
    hA.quarters_add _ (by omega) _ (by omega), hA.quarters_add _ (by omega) _ (by omega)]

theorem skew_eq_start {e : Engine} {f others : Bool} (h : SkewsLike e f others) (n : ℕ) :
    A.skew e f (A.div (A.quarters n) (A.ofNat 5)) = A.start true others n := by
  unfold SkewsLike at h
  unfold skew start
  cases others <;> cases f <;> simp only [reduceCtorEq] at h ⊢ <;>
    split_ifs <;> grind

theorem scanBlocks_short {bestTime : ℕ} {f : Bool} {b : Stamp} {below : Branch}
    (h : (b :: below).length < 6) :
    scanBlocks bestTime f (scanheight - 1) (.base b.nTime (b :: below)) = none := by
  obtain _ | ⟨b1, _ | ⟨b2, _ | ⟨b3, _ | ⟨b4, _ | ⟨b5, rest⟩⟩⟩⟩⟩ := below
  · rfl
  · rfl
  · rfl
  · rfl
  · rfl
  · simp only [length_cons] at h
    omega

theorem startsAtHalf_iff {tip : Tip} {f : Bool} {l : Branch} : StartsAtHalf tip f l ↔
    atHalf (decide (tip.nBestHeight > sysUpgrade01))
      (decide (tip.pindexBest.nTime > swingPatch) && othersOnly f l) (quarterSum l) = true := by
  simp only [StartsAtHalf, atHalf, Bool.or_eq_true, beq_iff_eq, Bool.and_eq_true, decide_eq_true_eq,
    and_assoc]

/-- The factors of a branch that is scanned: the curve starts from the average after the skew. -/
theorem Adequate.factors_eq (hA : A.Adequate) (tip : Tip) (f stale : Bool)
    {b0 b1 b2 b3 b4 b5 : Stamp} {rest l : Branch}
    (hl : l = b0 :: b1 :: b2 :: b3 :: b4 :: b5 :: rest)
    (hdry : ¬ (b0.nHeight < scanheight ∨ resetHeight tip.nBestHeight = true)) :
    A.factors tip f stale l =
      let a := A.start (decide (tip.nBestHeight > sysUpgrade01))
        (decide (tip.pindexBest.nTime > swingPatch) && othersOnly f l) (quarterSum l)
      if tip.pindexBest.nTime > swingPatch then
        A.finish (A.curve (lowDifficulty tip f) l (getLastBlockIndex f l) a)
      else if stale then []
      else A.finish ([], some a) := by
  obtain ⟨e, he, -, -, hs⟩ := scanBlocks_six tip.pindexBest.nTime f b0 b1 b2 b3 b4 b5 rest
  have havg := hA.average_eq A b0 b1 b2 b3 b4 b5 rest he
  rw [← hl] at havg hs
  have hstart : (if tip.nBestHeight > sysUpgrade01 then A.skew e f (A.average e) else A.average e) =
      A.start (decide (tip.nBestHeight > sysUpgrade01))
        (decide (tip.pindexBest.nTime > swingPatch) && othersOnly f l) (quarterSum l) := by
    rw [havg]
    by_cases hsk : tip.nBestHeight > sysUpgrade01
    · rw [if_pos hsk, decide_eq_true hsk]
      -- the final mathematics leaves the counts alone
      exact A.skew_eq_start hs _
    · rw [if_neg hsk, decide_eq_false hsk]
      rfl
  have hscan : scanBlocks tip.pindexBest.nTime f (scanheight - 1) (.base b0.nTime l) = some e := by
    rw [hl]
    exact he
  subst hl
  rw [factors, if_neg hdry, hscan]
  simp only [hstart]

theorem Adequate.extended_pos (hA : A.Adequate) (skewed others low : Bool) {n : ℕ} (h10 : 10 ≤ n)
    (h40 : n ≤ 40) (difTime : ℕ) :
    (∀ d ∈ A.finish (A.curveLoop low difTime 7 15 2 (A.start skewed others n)), 1 ≤ d) ↔
      low = true ∨ difTime ≤ 20 * 60 ∨ ¬ atHalf skewed others n = true := by
  have hgood : ∀ k ≤ 5, 1 ≤ A.difficultyfactor (A.dropped (A.start skewed others n) k) :=
    fun k hk =>
    (hA.rounds _ _ n h10 h40 k (by omega)).2 fun h => by omega
  have hloop := @curveLoop_pos _ A _ low difTime hgood 6 le_rfl (hgood 0 (by omega))
  have h6 := hA.rounds skewed others n h10 h40 6 le_rfl
  rw [show A.start skewed others n = A.dropped (A.start skewed others n)
    (6 - 6) from rfl, hloop, h6]
  simp

/-- A branch without six blocks, or a dry run, divides by nothing. -/
theorem factors_eq_nil_or (tip : Tip) (f stale : Bool) (l : Branch) :
    A.factors tip f stale l = [] ∧ ¬ Starved tip f l ∨ ∃ b0 b1 b2 b3 b4 b5 rest,
      l = b0 :: b1 :: b2 :: b3 :: b4 :: b5 :: rest ∧
        ¬ (b0.nHeight < scanheight ∨ resetHeight tip.nBestHeight = true) := by
  obtain _ | ⟨b0, below⟩ := l
  · exact .inl ⟨rfl, fun h => by simpa using h.scanned⟩
  by_cases hdry : b0.nHeight < scanheight ∨ resetHeight tip.nBestHeight = true
  · refine .inl ⟨if_pos hdry, fun h => ?_⟩
    rcases hdry with hh | hr
    · exact absurd (h.height b0 rfl) (not_le.2 hh)
    · rw [h.notReset] at hr
      cases hr
  by_cases hlen : (b0 :: below).length < 6
  · refine .inl ⟨?_, fun h => absurd h.scanned (not_le.2 hlen)⟩
    rw [factors, if_neg hdry, scanBlocks_short hlen]
  right
  obtain _ | ⟨b1, _ | ⟨b2, _ | ⟨b3, _ | ⟨b4, _ | ⟨b5, rest⟩⟩⟩⟩⟩ := below <;>
    simp only [length_cons, length_nil] at hlen
  all_goals first | omega | exact ⟨_, _, _, _, _, _, _, rfl, hdry⟩

section

variable (hA : A.Adequate) (tip : Tip) (f stale : Bool) (l : Branch)
include hA

/-- No factor is negative. -/
theorem Adequate.factors_nonneg : ∀ d ∈ A.factors tip f stale l, 0 ≤ d := by
  rcases A.factors_eq_nil_or tip f stale l with ⟨h, -⟩ | ⟨b0, b1, b2, b3, b4, b5, rest, hl, hdry⟩
  · rw [h]
    simp
  obtain ⟨h10, h40⟩ := quarterSum_range hl
  intro d hd
  rw [hA.factors_eq A tip f stale hl hdry] at hd
  generalize quarterSum l = n at *
  generalize decide (tip.nBestHeight > sysUpgrade01) = skewed at *
  generalize (decide (tip.pindexBest.nTime > swingPatch) && othersOnly f l) = others at *
  have hone : d ∈ A.finish ([], some (A.start skewed others n)) → 0 ≤ d := by
    intro h
    have h0 : d = A.difficultyfactor (A.start skewed others n) := by simpa [finish] using h
    rw [h0]
    exact hA.nonneg skewed others n h10 h40 0 (by omega)
  split_ifs at hd
  · -- the curve
    unfold curve at hd
    split at hd
    · split_ifs at hd
      · obtain ⟨k, hk, rfl⟩ := curveLoop_dropped (s := A.start skewed others n) (r := 6) le_rfl hd
        exact hA.nonneg skewed others n h10 h40 k hk
      · obtain ⟨k, hk, rfl⟩ := curveLoop_dropped (s := A.start skewed others n) (r := 6) le_rfl hd
        exact hA.nonneg skewed others n h10 h40 k hk
      · rename_i t tprev _ _ _
        obtain ⟨k, hk, hhours⟩ := A.hours_eq_halved (subTime t.nTime tprev.nTime)
          (A.start skewed others n)
        have hpos := hA.hours skewed others n h10 h40 k hk
        rw [← hhours] at hpos
        simp only [finish, nil_append, mem_singleton] at hd
        omega
    · simp [finish] at hd
  · cases hd
  · exact hone hd

/-- **The factors of a call are positive unless it is starved.** -/
theorem Adequate.factors_pos_iff : (∀ d ∈ A.factors tip f stale l, 1 ≤ d) ↔ ¬ Starved tip f l := by
  rcases A.factors_eq_nil_or tip f stale l with ⟨h, hns⟩ | ⟨b0, b1, b2, b3, b4, b5, rest, hl, hdry⟩
  · simp [h, hns]
  obtain ⟨h10, h40⟩ := quarterSum_range hl
  have heq := hA.factors_eq A tip f stale hl hdry
  have hhalf : StartsAtHalf tip f l ↔ _ := startsAtHalf_iff
  rw [heq]
  obtain ⟨t, below, ht⟩ := getLastBlockIndex_cons f b0 (b1 :: b2 :: b3 :: b4 :: b5 :: rest)
  rw [← hl] at ht
  generalize hn : quarterSum l = n at *
  generalize hsk : decide (tip.nBestHeight > sysUpgrade01) = skewed at *
  generalize hot : (decide (tip.pindexBest.nTime > swingPatch) && othersOnly f l) = others at *
  have hstart : 1 ≤ A.difficultyfactor (A.start skewed others n) :=
    (hA.rounds skewed others n h10 h40 0 (by omega)).2 fun h => by omega
  by_cases hswing : tip.pindexBest.nTime > swingPatch
  · simp only [hswing, if_true, ht]
    obtain _ | ⟨tprev, below⟩ := below
    · -- the last block of the type is the genesis block
      have hns : ¬ Starved tip f l := by
        intro h
        have htyped := h.typed
        rw [ht] at htyped
        simp at htyped
      simp only [hns]
      simp [hl, curve, finish]
    by_cases h36 : b0.nTime > vrxV36
    · have hcurve : A.curve (lowDifficulty tip f) l
          (t :: tprev :: below) (A.start skewed others n) = A.curveLoop (lowDifficulty tip f)
            (extendedTime l (t :: tprev :: below)) 7 15 2
            (A.start skewed others n) := by
        simp only [hl, curve, h36, if_true, extendedTime]
      rw [hcurve, hA.extended_pos A _ _ _ h10 h40]
      constructor
      · rintro hor h
        rcases hor with hlow | htime | hat
        · rw [h.notLow] at hlow
          cases hlow
        · have := h.late
          rw [ht] at this
          omega
        · exact hat (hhalf.1 h.half)
      · intro hns
        by_contra hcon
        rw [not_or, not_or, not_le, not_not] at hcon
        obtain ⟨hlow, htime, hat⟩ := hcon
        refine hns ⟨by simp [hl], ?_, ?_, ?_, hswing, ?_, ?_, ?_, hhalf.2 hat⟩
        · rw [hl]
          rintro b ⟨rfl⟩
          exact not_lt.1 fun hh => hdry (.inl hh)
        · exact Bool.eq_false_iff.2 fun hr => hdry (.inr hr)
        · rw [ht]
          simp
        · rw [hl]
          rintro b ⟨rfl⟩
          exact h36
        · exact Bool.eq_false_iff.2 hlow
        · rw [ht]
          exact htime
    · -- the standard curve halves four times at most
      have hns : ¬ Starved tip f l :=
        fun h => h36 (h.extended b0 (by rw [hl]; rfl))
      obtain ⟨k, hk, hhours⟩ := A.hours_eq_halved (subTime t.nTime tprev.nTime)
        (A.start skewed others n)
      have hpos := hA.hours skewed others n h10 h40 k hk
      simp only [hns]
      simp only [hl, curve, h36, hhours]
      simpa [finish] using hpos
  · -- before the swing patch there is one simulation
    have hns : ¬ Starved tip f l := fun h => hswing h.swing
    simp only [hswing, hns]
    cases stale with
    | true => simp
    | false => simpa [finish] using hstart

theorem Adequate.zero_mem_iff : 0 ∈ A.factors tip f stale l ↔ Starved tip f l := by
  have hpos := hA.factors_pos_iff A tip f stale l
  constructor
  · intro h0
    by_contra hns
    exact absurd (hpos.2 hns 0 h0) (by decide)
  · intro hs
    by_contra h0
    refine absurd (hpos.1 fun d hd => ?_) (not_not.2 hs)
    have hd0 : d ≠ 0 := fun h => h0 (h ▸ hd)
    have := hA.factors_nonneg A tip f stale l d hd
    omega

end

end Arithmetic

/-! ### Double precision -/

/-- What `CBigNum::operator/` throws when it divides by zero. -/
def divFailed : Stop := .exception "CBigNum::operator/ : BN_div failed"

theorem simulate_of_zero {a : Binary64} (nBits : ℕ)
    (h : Arithmetic.double.difficultyfactor a = 0) : simulate a nBits = .error divFailed :=
  if_pos h

theorem simulate_of_ne {a : Binary64} (nBits : ℕ) (h : Arithmetic.double.difficultyfactor a ≠ 0) :
    ∃ bn, simulate a nBits = .ok bn := ⟨_, if_neg h⟩

/-- The extended curve throws if a factor is zero, and ends as its run does otherwise. -/
theorem curveRounds_eq (low : Bool) (nBits difTime : ℕ) {r : ℕ} (hr : r ≤ 6) (a : Binary64) :
    curveRounds low nBits difTime r a =
      if 0 ∈ (Arithmetic.double.curveLoop low difTime (r + 1) (21 - r) (8 - r) a).1 then
        .error divFailed
      else .ok (Arithmetic.double.curveLoop low difTime (r + 1) (21 - r) (8 - r) a).2 := by
  induction r generalizing a with
  | zero =>
    simp only [curveRounds, Arithmetic.curveLoop]
    cases low <;> split_ifs <;> simp_all
  | succ r ih =>
    have hd : 20 - r = 21 - (r + 1) := by omega
    have hdiv : 7 - r = 8 - (r + 1) := by omega
    simp only [curveRounds, hd, hdiv]
    rw [Arithmetic.curveLoop]
    by_cases ht : difTime > (21 - (r + 1)) * 60
    · rw [if_pos ht, if_pos ht]
      cases low with
      | true => simp
      | false =>
        have hm : 21 - (r + 1) + 1 = 21 - r := by omega
        have hc : 8 - (r + 1) + 1 = 8 - r := by omega
        rw [if_neg (by omega : ¬ 21 - (r + 1) > 5 + 15), hm, hc]
        obtain ⟨a', ha'⟩ : ∃ a', a' = a.div (.ofNat (8 - (r + 1))) := ⟨_, rfl⟩
        have hrest := ih (by omega) a'
        change _ = if 0 ∈ (Arithmetic.double.simulated (a.div (.ofNat (8 - (r + 1))))
            (Arithmetic.double.curveLoop false difTime (r + 1) (21 - r) (8 - r)
              (a.div (.ofNat (8 - (r + 1)))))).1 then _ else
          Except.ok (Arithmetic.double.simulated (a.div (.ofNat (8 - (r + 1))))
            (Arithmetic.double.curveLoop false difTime (r + 1) (21 - r) (8 - r)
              (a.div (.ofNat (8 - (r + 1)))))).2
        rw [← ha', Arithmetic.simulated]
        by_cases h0 : Arithmetic.double.difficultyfactor a' = 0
        · rw [if_pos h0, simulate_of_zero nBits h0]
          simp [Except.bind]
        · obtain ⟨bn, hbn⟩ := simulate_of_ne nBits h0
          rw [if_neg h0, hbn]
          simp only [mem_cons, Ne.symm h0, false_or]
          exact hrest
    · rw [if_neg ht, if_neg ht]
      simp

theorem curvedTarget_eq (limit : ℤ) (nBits : ℕ) (c : List ℤ × Option Binary64)
    (h0 : (0 : ℤ) ∉ c.1) : curvedTarget limit nBits c.2 = .error divFailed ↔
      0 ∈ Arithmetic.double.finish c := by
  obtain ⟨factors, o⟩ := c
  cases o with
  | none => simpa [curvedTarget, Arithmetic.finish] using h0
  | some a =>
    have h0' : (0 : ℤ) ∉ factors := h0
    simp only [curvedTarget, averageTarget, Arithmetic.finish]
    by_cases hz : Arithmetic.double.difficultyfactor a = 0
    · rw [simulate_of_zero nBits hz]
      simp [Except.map, hz]
    · obtain ⟨bn, hbn⟩ := simulate_of_ne nBits hz
      rw [hbn]
      simp [Except.map, h0', Ne.symm hz]

/-- The curve and the end of a call throw if a factor is zero. -/
theorem threadCurve_eq (limit : ℤ) (low : Bool) (b prev t tprev : Stamp) (rest below : Branch)
    (a : Binary64) :
    (threadCurve low b prev t tprev a).bind (curvedTarget limit t.nBits) = .error divFailed ↔
      0 ∈ Arithmetic.double.finish
        (Arithmetic.double.curve low (b :: prev :: rest) (t :: tprev :: below) a) := by
  unfold threadCurve Arithmetic.curve
  by_cases h36 : b.nTime > vrxV36
  · simp only [h36, if_true]
    generalize (if b.nTime > vrxV37 then
      (subTime b.nTime t.nTime + subTime b.nTime prev.nTime) % 2 ^ 64 else
        subTime b.nTime t.nTime) = d
    rw [curveRounds_eq low t.nBits d (r := 6) le_rfl a]
    by_cases h0 : (0 : ℤ) ∈ (Arithmetic.double.curveLoop low d (6 + 1) (21 - 6) (8 - 6) a).1
    · rw [if_pos h0]
      simp only [Except.bind, true_iff]
      generalize Arithmetic.double.curveLoop low d 7 15 2 a = c at *
      obtain ⟨factors, o⟩ := c
      cases o with
      | none => exact h0
      | some a' => exact mem_append_left _ h0
    · rw [if_neg h0]
      exact curvedTarget_eq limit t.nBits _ h0
  · simp only [h36]
    exact curvedTarget_eq limit t.nBits ([], some (hourCurve (subTime t.nTime tprev.nTime) a))
      (by simp)

section

variable {b0 b1 b2 b3 b4 b5 : Stamp} {rest l : Branch}
  (hl : l = b0 :: b1 :: b2 :: b3 :: b4 :: b5 :: rest) (skewed others : Bool)
include hl

theorem start_branchAverage : Arithmetic.double.start skewed others (quarterSum l) =
    if skewed then skewAverage others (branchAverage l) else branchAverage l := by
  rw [branchAverage_eq hl]
  rfl

theorem start_branchAverage_false :
    Arithmetic.double.start skewed false (quarterSum l) = branchAverage l := by
  have hlt := branchAverage_not_lt hl
  rw [branchAverage_eq hl] at hlt ⊢
  cases skewed with
  | true => exact if_neg (ne_true_of_eq_false hlt)
  | false => rfl

end

/-- **In double precision, a call of `VRX_Retarget` throws because of a division by zero if and only
if one of its factors is zero**, that is if it is starved. -/
theorem vrxRetarget_divides_iff {N : Network} {l : Branch} (h : Branch.Valid N l) (tip : Tip)
    (f : Bool) (g : Globals) : answer (vrxRetarget N tip l f g) = .error divFailed ↔
      0 ∈ Arithmetic.double.factors tip f g.fCRVreset l := by
  have hA := Arithmetic.double_adequate
  rw [vrxRetarget_answer h]
  unfold Globals.vrxRule
  obtain ⟨b0, below, rfl⟩ : ∃ b below, l = b :: below := by
    cases l with
    | nil => exact h.elim
    | cons b below => exact ⟨b, below, rfl⟩
  by_cases hdry : b0.nHeight < scanheight ∨ resetHeight tip.nBestHeight = true
  · have hnil : Arithmetic.double.factors tip f g.fCRVreset (b0 :: below) = [] := if_pos hdry
    rw [hnil]
    rcases hdry with hh | hr
    · split_ifs <;> simp [Rule.target, hh]
    · simp [hr, Rule.target]
  have hh : ¬ b0.nHeight < scanheight := fun h => hdry (.inl h)
  have hr : resetHeight tip.nBestHeight = false := Bool.eq_false_iff.2 fun h => hdry (.inr h)
  obtain ⟨b1, b2, b3, b4, b5, rest, rfl⟩ := h.exists_six hh
  have hl := Eq.refl (b0 :: b1 :: b2 :: b3 :: b4 :: b5 :: rest)
  rw [hA.factors_eq _ tip f g.fCRVreset rfl hdry]
  obtain ⟨t, below, ht⟩ := getLastBlockIndex_cons f b0 (b1 :: b2 :: b3 :: b4 :: b5 :: rest)
  simp only [hr, Bool.false_eq_true, if_false]
  by_cases hswing : tip.pindexBest.nTime > swingPatch
  · simp only [hswing, if_true, Rule.target, headD_cons, hh, curveTarget, ht,
      ← start_branchAverage hl]
    cases below with
    | nil => simp [Arithmetic.curve, Arithmetic.finish, divFailed]
    | cons tprev below => exact threadCurve_eq _ _ _ _ _ _ _ _ _
  · simp only [hswing, decide_false, Bool.false_and, start_branchAverage_false hl]
    cases g.fCRVreset with
    | true => simp [Rule.target]
    | false =>
      simp only [Rule.target, headD_cons, hh]
      exact curvedTarget_eq _ _ ([], some _) (by simp)

/-! ### Exact factors -/

/-- **When `VRX_Retarget` does not divide by zero.**  With exact factors, every simulation divides
by one at least if and only if the call is not starved: six rounds of the extended curve, which
takes more than twenty minutes, from an average of one half. -/
theorem vrxFactors_pos_iff (tip : Tip) (fProofOfStake fCRVreset : Bool) (pindexLast : Branch) :
    (∀ d ∈ Arithmetic.exact.factors tip fProofOfStake fCRVreset pindexLast, 1 ≤ d) ↔
      ¬ Starved tip fProofOfStake pindexLast :=
  Arithmetic.exact_adequate.factors_pos_iff _ tip fProofOfStake fCRVreset pindexLast

/-- A chain with a block every 1400 seconds, all of them proof-of-work at the difficulty one. -/
def slowChain : ℕ → Branch
  | 0 => [Network.main.genesis]
  | n + 1 => ⟨n + 1, 1473058800 + 1400 * (n + 1), 0x1d00ffff, false⟩ :: slowChain n

/-- The best block of the chain is its last one. -/
def slowTip : Tip := ⟨⟨700000, 2453058800, 0x1d00ffff, false⟩, slowChain 699999, 700000⟩

theorem slowChain_head (n : ℕ) : ∃ nBits rest,
    slowChain n = ⟨n, 1473058800 + 1400 * n, nBits, false⟩ :: rest := by
  cases n with
  | zero => exact ⟨_, _, rfl⟩
  | succ n => exact ⟨_, _, rfl⟩

theorem slowChain_valid (n : ℕ) : Branch.Valid .main (slowChain n) := by
  induction n with
  | zero => rfl
  | succ n ih =>
    obtain ⟨nBits, rest, hn⟩ := slowChain_head n
    rw [slowChain]
    rw [hn] at ih ⊢
    exact ⟨rfl, ih⟩

theorem slowChain_length (n : ℕ) : (slowChain n).length = n + 1 := by
  induction n with
  | zero => rfl
  | succ n ih => rw [slowChain, length_cons, ih]

theorem slowChain_times (n : ℕ) : (slowChain n).Pairwise fun b p => p.nTime < b.nTime := by
  have hle : ∀ n, ∀ p ∈ slowChain n, p.nTime ≤ 1473058800 + 1400 * n := by
    intro n
    induction n with
    | zero =>
      intro p hp
      rw [slowChain, mem_singleton] at hp
      subst hp
      decide
    | succ n ih =>
      intro p hp
      rcases mem_cons.1 hp with rfl | hp
      · exact le_rfl
      · have := ih p hp
        omega
  induction n with
  | zero => exact pairwise_singleton _ _
  | succ n ih =>
    refine pairwise_cons.2 ⟨fun p hp => ?_, ih⟩
    have := hle n p hp
    simp only
    omega

theorem slowChain_starved : Starved slowTip false (slowChain 700000) := by
  have hten : quarterSum (slowChain 700000) = 10 := by rfl
  have htype : getLastBlockIndex false (slowChain 700000) = slowChain 700000 := rfl
  have hlen := slowChain_length 700000
  refine ⟨?_, ?_, by decide, ?_, by decide, ?_, ?_, ?_, .inl hten⟩
  · omega
  · rintro b ⟨rfl⟩
    decide
  · rw [htype]
    omega
  · rintro b ⟨rfl⟩
    decide
  · unfold lowDifficulty vrxGetPrevDiff
    decide +kernel
  · rw [htype]
    decide

/-- **A slow chain divides by zero**: all spacings of a chain of height 700000 are 1400 seconds, and
the sixth round of the curve for the next proof-of-work block divides one half down to `1 /
10080`. -/
theorem vrxFactors_slowChain : ¬ (∀ (N : Network) (pindexLast : Branch), Branch.Valid N pindexLast →
      scanheight ≤ pindexLast.length → (pindexLast.Pairwise fun b p => p.nTime < b.nTime) →
      ∀ (tip : Tip) (fProofOfStake fCRVreset : Bool),
        ∀ d ∈ Arithmetic.exact.factors tip fProofOfStake fCRVreset pindexLast, 1 ≤ d) ∧
    Arithmetic.exact.factors slowTip false false (slowChain 700000) = [2500, 833, 208, 41, 6, 0] ∧
    ∀ g : Globals, answer (vrxRetarget .main slowTip (slowChain 700000) false g) =
      .error divFailed := by
  have hex := Arithmetic.exact_adequate.zero_mem_iff _ slowTip false false (slowChain 700000)
  have hdb := fun stale =>
    Arithmetic.double_adequate.zero_mem_iff _ slowTip false stale (slowChain 700000)
  have hlen := slowChain_length 700000
  refine ⟨fun h => ?_, by decide +kernel, fun g => ?_⟩
  · have h1 := h .main _ (slowChain_valid 700000) (by unfold scanheight; omega)
      (slowChain_times 700000) slowTip false false 0 (hex.2 slowChain_starved)
    exact absurd h1 (by decide)
  · exact (vrxRetarget_divides_iff (slowChain_valid 700000) slowTip false g).2
      ((hdb g.fCRVreset).2 slowChain_starved)

end Espers
