import Espers.Miner.Limits

/-!
# The arithmetic of the stake reward

`GetCoinAge` sums in big numbers; `GetProofOfStakeReward` then multiplies the age in `int64_t`.

* `stakeSubsidy_eq_iff` : the product of age, rate and 33 fits into 63 bits exactly if the subsidy
  is the exact quotient.
* `stakeReward_exact_iff` : **the coinstakes whose subsidy is exact**, in each phase before height
  980950.
* `stakeReward_overflows` : 50 billion coins of twelve days overflow.
-/

namespace Espers

open Exec Simnet

/-- The yearly rate that `GetProofOfStakeReward` selects by the height of the best block. -/
def coinYearReward (bestHeight : ℤ) : ℤ :=
  if bestHeight > nPoS1PhaseStart then 1 * cent
  else if bestHeight > nPoS5PhaseStart then 4 * cent
  else if bestHeight > nPoS25PhaseStart then 19 * cent
  else 250 * cent

theorem coinYearReward_cases {bestHeight : ℤ} (h : bestHeight < 980950) :
    coinYearReward bestHeight = 19000000 ∨ coinYearReward bestHeight = 250000000 := by
  have h1 : ¬ bestHeight > nPoS1PhaseStart := by
    unfold nPoS1PhaseStart
    omega
  have h5 : ¬ bestHeight > nPoS5PhaseStart := by
    unfold nPoS5PhaseStart
    omega
  rw [coinYearReward, if_neg h1, if_neg h5]
  split_ifs
  · exact .inl rfl
  · exact .inr rfl

theorem stakeProduct_eq {nCoinAge rate : ℤ} (hrate : rate = 19000000 ∨ rate = 250000000) :
    mul64 (mul64 (wrap64 nCoinAge) rate) 33 = wrap64 (nCoinAge * rate * 33) := by
  unfold mul64 wrap64
  rcases hrate with rfl | rfl
  · omega
  · omega

theorem tdiv_wrap64_eq_iff {x : ℤ} (hx : 0 ≤ x) :
    (wrap64 x).tdiv (365 * 33 + 8) = x / (365 * 33 + 8) ↔ x < 2 ^ 63 := by
  have hwrap : wrap64 x = x ∨ wrap64 x ≤ x - 2 ^ 64 := by
    unfold wrap64
    omega
  constructor
  · intro heq
    have hrange := wrap64_range x
    rw [Int.tdiv_eq_ediv] at heq
    have hsign : (365 * 33 + 8 : ℤ).sign = 1 := rfl
    split_ifs at heq with hc
    · omega
    · rw [hsign] at heq
      omega
  · intro hlt
    rw [wrap64_of_range (by omega) (by omega), Int.tdiv_eq_ediv_of_nonneg hx]

theorem stakeSubsidy_eq_iff {nCoinAge : ℕ} {rate : ℤ} (hrate : rate = 19000000 ∨ rate = 250000000) :
    stakeSubsidy (wrap64 nCoinAge) rate = nCoinAge * rate * 33 / (365 * 33 + 8) ↔
      (nCoinAge : ℤ) * rate * 33 < 2 ^ 63 := by
  rw [stakeSubsidy, stakeProduct_eq hrate]
  refine tdiv_wrap64_eq_iff ?_
  rcases hrate with rfl | rfl
  · omega
  · omega

/-- The values of the outputs that a coinstake spends are in range. -/
def StakesInRange (w : World) (ctx : Ctx) (txdb : CTxDB) (tx : CTransaction) : Prop :=
  ∀ txin ∈ tx.vin, ∀ r, readPrevTx w ctx txdb txin.prevout = some r →
    ∀ txout, r.2.vout[txin.prevout.n]? = some txout → moneyRange txout.nValue = true

/-- The subsidy for the coin age of a coinstake is the exact quotient. -/
def StakeRewardExact (E : Env) (w : World) (ctx : Ctx) (txdb : CTxDB) (pindexPrev : Option Uint256)
    (tx : CTransaction) (bestHeight : ℤ) : Prop :=
  ∀ nCoinAge : ℕ, getCoinAge E w ctx txdb pindexPrev tx = .ok nCoinAge →
    stakeSubsidy (wrap64 nCoinAge) (coinYearReward bestHeight) =
      nCoinAge * coinYearReward bestHeight * 33 / (365 * 33 + 8)

/-- **The coinstakes whose subsidy is exact**: those whose age, times the rate and 33, is below
`2^63`. -/
theorem stakeReward_exact_iff (E : Env) (w : World) (ctx : Ctx) (txdb : CTxDB)
    (pindexPrev : Option Uint256) (tx : CTransaction) {bestHeight : ℤ} (h : bestHeight < 980950) :
    StakeRewardExact E w ctx txdb pindexPrev tx bestHeight ↔
      ∀ nCoinAge : ℕ, getCoinAge E w ctx txdb pindexPrev tx = .ok nCoinAge →
        (nCoinAge : ℤ) * coinYearReward bestHeight * 33 < 2 ^ 63 := by
  have hrate := coinYearReward_cases h
  constructor
  · intro hexact nCoinAge hage
    exact (stakeSubsidy_eq_iff hrate).mp (hexact nCoinAge hage)
  · intro hsmall nCoinAge hage
    exact (stakeSubsidy_eq_iff hrate).mpr (hsmall nCoinAge hage)

/-! ### A hoard -/

/-- A coinstake at time `nTime` of the first output of the bank. -/
def hoardStake (nTime : ℕ) (v : ℤ) : CTransaction where
  nVersion := 1
  nTime := nTime
  vin := [⟨⟨1, 0⟩, [], uintMax⟩]
  vout := [⟨0, []⟩, ⟨v, [0x51]⟩]
  nLockTime := 0

/-- A node that has the bank with one output of `v`. -/
def hoardWorld (v : ℤ) : World := bankWorld 1 v fun _ => []

theorem hoard_age : getCoinAge env (hoardWorld 5000000000000000000) (context false false)
    (hoardWorld 5000000000000000000).txdb (some 1) (hoardStake 1036801 5000000000000000000) =
    .ok 600000000000 := by
  decide

theorem hoard_inRange : StakesInRange (hoardWorld 5000000000000000000) (context false false)
    (hoardWorld 5000000000000000000).txdb (hoardStake 1036801 5000000000000000000) := by
  intro txin hin r hr txout hout
  obtain rfl := List.mem_singleton.mp hin
  have hread : (readPrevTx (hoardWorld 5000000000000000000) (context false false)
      (hoardWorld 5000000000000000000).txdb ⟨1, 0⟩).all
      (fun r => (r.2.vout[0]?).all fun txout => moneyRange txout.nValue) = true := by decide
  rw [hr, Option.all_some, hout, Option.all_some] at hread
  exact hread

/-- **The product overflows**: neither in the first phase nor in the second is the subsidy of the
hoard exact. -/
theorem stakeReward_overflows :
    ¬ ∀ (E : Env) (w : World) (ctx : Ctx) (txdb : CTxDB) (pindexPrev : Option Uint256) (tx : CTransaction)
      (bestHeight : ℤ), tx.isCoinStake = true → StakesInRange w ctx txdb tx → bestHeight < 980950 →
      StakeRewardExact E w ctx txdb pindexPrev tx bestHeight := by
  intro hall
  have hexact := hall env _ _ _ (some 1) _ 700000 (by decide) hoard_inRange (by decide) _ hoard_age
  exact absurd hexact (by decide)

/-- A hundred coins, twelve days old. -/
theorem stakeReward_exact_small :
    stakeSubsidy (wrap64 1200) (coinYearReward 700000) = 1200 * coinYearReward 700000 * 33 /
    (365 * 33 + 8) := by
  have hage : getCoinAge env (hoardWorld 10000000000) (context false false)
    (hoardWorld 10000000000).txdb (some 1)
      (hoardStake 1036801 10000000000) = .ok 1200 := by decide
  refine (stakeReward_exact_iff env (hoardWorld 10000000000) (context false false)
    (hoardWorld 10000000000).txdb (some 1) (hoardStake 1036801 10000000000) (by decide)).mpr
    (fun nCoinAge hother => ?_) 1200 hage
  rw [hage, Except.ok.injEq] at hother
  subst hother
  decide

end Espers
