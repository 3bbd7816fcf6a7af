import Espers.Chain.Inputs

/-!
# Block rewards

`getProofOfWorkReward` and `getProofOfStakeReward` are the subsidy rules of `blockparams.cpp`; both
read the supply at the best block.  `getCoinAge` is the coin age a coinstake destroys.

The test against the cap of the supply is the last arm of an `else if` chain in both rules.  For
proof of work the arms before it cover every height, so it is never reached
(`getProofOfWorkReward_zero`).
-/

namespace Espers

open Exec

/-! ### Parameters -/

/-- `nGenesisHeight`. -/
def nGenesisHeight : ℤ := 0

/-- `nReservePhaseStart`. -/
def nReservePhaseStart : ℤ := 10

/-- `nReservePhaseEnd`. -/
def nReservePhaseEnd : ℤ := 356

/-- `nPoS25PhaseStart`. -/
def nPoS25PhaseStart : ℤ := 20000

/-- `nPoS5PhaseStart`. -/
def nPoS5PhaseStart : ℤ := 2000800

/-- `nPoS1PhaseStart`. -/
def nPoS1PhaseStart : ℤ := 3000300

/-- `nGenesisBlockReward`. -/
def nGenesisBlockReward : ℤ := 1 * coin

/-- `nBlockRewardReserve`. -/
def nBlockRewardReserve : ℤ := 50000000 * coin

/-- `nBlockPoWReward`. -/
def nBlockPoWReward : ℤ := 5000 * coin

/-- `nBlockRewardBuffer`, a tenth of a coin. -/
def nBlockRewardBuffer : ℤ := 10000000

/-- `nStakeMinAge`. -/
def nStakeMinAge : ℕ := 2 * 60 * 60

/-- `nStakeMinConfirmations`. -/
def nStakeMinConfirmations : ℕ := 90

/-- `GetProofOfWorkReward`; `bestMoneySupply` is `pindexBest->nMoneySupply`. -/
def getProofOfWorkReward (bestMoneySupply nHeight nFees : ℤ) : ℤ :=
  -- the later override by height applies to every subsidy that is not returned at once
  let pay (nSubsidy : ℤ) : ℤ := add64 (if nHeight ≥ 980950 then 500 * coin else nSubsidy) nFees
  if nHeight = nGenesisHeight then nGenesisBlockReward
  else if nHeight ≤ nReservePhaseStart then pay nBlockRewardBuffer
  else if nHeight > nReservePhaseStart then
    if nHeight < nReservePhaseEnd then pay nBlockRewardReserve else pay nBlockPoWReward
  else if bestMoneySupply > maxSingleTx then nFees
  else pay nBlockPoWReward

/-- `nCoinAge * rate * 33 / (365 * 33 + 8)`. -/
def stakeSubsidy (nCoinAge rate : ℤ) : ℤ := (mul64 (mul64 nCoinAge rate) 33).tdiv (365 * 33 + 8)

/-- `GetProofOfStakeReward`; the first two arguments are the height and the supply of the best
block. -/
def getProofOfStakeReward (bestHeight bestMoneySupply nCoinAge nFees : ℤ) : ℤ :=
  let pay (nSubsidy : ℤ) : ℤ := add64 (if bestHeight ≥ 980950 then 500 * coin else nSubsidy) nFees
  if bestHeight > nPoS1PhaseStart then pay (stakeSubsidy nCoinAge (1 * cent))
  else if bestHeight > nPoS5PhaseStart then pay (stakeSubsidy nCoinAge (4 * cent))
  else if bestHeight > nPoS25PhaseStart then pay (stakeSubsidy nCoinAge (19 * cent))
  else if bestMoneySupply > maxSingleTx then nFees
  else pay (stakeSubsidy nCoinAge (250 * cent))

/-- The reward a proof-of-work block of height `nHeight` may mint: the switch-over heights have a
subsidy of their own. -/
def calculatedCoinbaseReward (bestMoneySupply nHeight nFees : ℤ) : ℤ :=
  if nHeight < 990000 ∧ nHeight > 980949 then add64 (5000 * coin) nFees
  else getProofOfWorkReward bestMoneySupply nHeight nFees

/-! ### Coin age -/

/-- `CTransaction::ReadFromDisk(txdb, prevout, txindex)`. -/
def readPrevTx (w : World) (ctx : Ctx) (txdb : CTxDB) (prevout : COutPoint) :
    Option (CTxIndex × CTransaction) :=
  (txdb.readTxIndex prevout.hash).bind fun txindex =>
    (w.readTxFromDisk ctx txindex.pos).bind fun txPrev =>
      if prevout.n ≥ txPrev.vout.length then none else some (txindex, txPrev)

/-- The input is too young to count: by confirmations under protocol v3, by age before. -/
def tooYoung (E : Env) (w : World) (ctx : Ctx) (pindexPrev : Option Uint256) (nTime : ℕ)
    (txindex : CTxIndex) : Except Stop Bool :=
  if isProtocolV3 E nTime then
    .ok (match pindexPrev.bind w.mapBlockIndex.lookup with
      | none => false
      | some e => (isConfirmedInNPrevBlocks w.mapBlockIndex txindex.pos e.nHeight
          (nStakeMinConfirmations - 1) nStakeMinConfirmations pindexPrev).isSome)
  else if ctx.txReadFails txindex.pos then .error .refuse
  else
    match w.files.readBlock txindex.pos.nFile txindex.pos.nBlockPos with
    | none => .error .refuse
    | some block => .ok (decide (block.nTime + nStakeMinAge > nTime))

/-- The loop of `GetCoinAge`, in units of cent-seconds. -/
def centSeconds (E : Env) (w : World) (ctx : Ctx) (txdb : CTxDB) (pindexPrev : Option Uint256)
    (nTime : ℕ) (bnCentSecond : ℤ) : List CTxIn → Except Stop ℤ
  | [] => .ok bnCentSecond
  | txin :: vin =>
    match readPrevTx w ctx txdb txin.prevout with
    | none => centSeconds E w ctx txdb pindexPrev nTime bnCentSecond vin
    | some (txindex, txPrev) => do
      rejectIf (nTime < txPrev.nTime) .refuse
      let skip ← tooYoung E w ctx pindexPrev nTime txindex
      let nValueIn := ((txPrev.vout[txin.prevout.n]?).map CTxOut.nValue).getD 0
      let age : ℤ := (nValueIn * ((nTime - txPrev.nTime : ℕ) : ℤ)).tdiv cent
      centSeconds E w ctx txdb pindexPrev nTime (if skip then bnCentSecond else bnCentSecond + age)
        vin

/-- `CTransaction::GetCoinAge`, in coin-days. -/
def getCoinAge (E : Env) (w : World) (ctx : Ctx) (txdb : CTxDB) (pindexPrev : Option Uint256)
    (tx : CTransaction) : Except Stop ℕ :=
  if tx.isCoinBase then .ok 0
  else do
    let bnCentSecond ← centSeconds E w ctx txdb pindexPrev tx.nTime 0 tx.vin
    let bnCoinDay := ((bnCentSecond * cent).tdiv coin).tdiv (24 * 60 * 60)
    .ok (bnCoinDay.natAbs % 2 ^ 64)

theorem centSeconds_congr {E : Env} {w w' : World} (ctx : Ctx) (txdb : CTxDB)
    (pindexPrev : Option Uint256) (nTime : ℕ) (hf : w'.files = w.files)
    (hm : w'.mapBlockIndex = w.mapBlockIndex) (vin : List CTxIn) (a : ℤ) :
    centSeconds E w' ctx txdb pindexPrev nTime a vin =
      centSeconds E w ctx txdb pindexPrev nTime a vin := by
  induction vin generalizing a with
  | nil => rfl
  | cons txin vin ih =>
    simp only [centSeconds, readPrevTx, World.readTxFromDisk, tooYoung, hf, hm, ih]

theorem getCoinAge_congr {E : Env} {w w' : World} (ctx : Ctx) (txdb : CTxDB)
    (pindexPrev : Option Uint256) (tx : CTransaction) (hf : w'.files = w.files)
    (hm : w'.mapBlockIndex = w.mapBlockIndex) :
    getCoinAge E w' ctx txdb pindexPrev tx = getCoinAge E w ctx txdb pindexPrev tx := by
  simp only [getCoinAge, centSeconds_congr ctx txdb pindexPrev tx.nTime hf hm]

/-! ### What the rules pay -/

variable {supply nHeight : ℤ}

theorem getProofOfWorkReward_fees (nFees : ℤ) (h : nHeight ≠ nGenesisHeight) :
    getProofOfWorkReward supply nHeight nFees =
      add64 (getProofOfWorkReward supply nHeight 0) nFees := by
  have key : ∀ x : ℤ, add64 x nFees = add64 (add64 x 0) nFees := by
    intro x; unfold add64; rw [wrap64_wrap_add, add_zero]
  simp only [getProofOfWorkReward, h, ↓reduceIte]
  split_ifs <;> first | exact key _ | (exfalso; omega)

/-- **The cap is never applied to a proof-of-work block**: whatever the supply, a block above
genesis is paid a positive subsidy. -/
theorem getProofOfWorkReward_zero (h : nHeight ≠ nGenesisHeight) :
    0 < getProofOfWorkReward supply nHeight 0 ∧
      getProofOfWorkReward supply nHeight 0 ≤ 5000000000000000 := by
  have h5 : add64 (500 * coin) 0 = 50000000000 := by decide
  have hb : add64 nBlockRewardBuffer 0 = 10000000 := by decide
  have hr : add64 nBlockRewardReserve 0 = 5000000000000000 := by decide
  have hp : add64 nBlockPoWReward 0 = 500000000000 := by decide
  simp only [getProofOfWorkReward, h, ↓reduceIte]
  split_ifs <;> first | (exfalso; omega) | simp [h5, hb, hr, hp]

theorem getProofOfWorkReward_late (h : 356 ≤ nHeight) :
    getProofOfWorkReward supply nHeight 0 ≤ 500000000000 := by
  have h5 : add64 (500 * coin) 0 = 50000000000 := by decide
  have hp : add64 nBlockPoWReward 0 = 500000000000 := by decide
  have hg : ¬ nHeight = nGenesisHeight := by rw [show nGenesisHeight = 0 from rfl]; omega
  have hs : nHeight > nReservePhaseStart := by rw [show nReservePhaseStart = 10 from rfl]; omega
  have he : ¬ nHeight < nReservePhaseEnd := by rw [show nReservePhaseEnd = 356 from rfl]; omega
  simp only [getProofOfWorkReward, not_le.2 hs, ↓reduceIte]
  split_ifs
  · rw [h5]; norm_num
  · rw [hp]

theorem getProofOfStakeReward_fees {bestHeight supply nCoinAge : ℤ} (nFees : ℤ)
    (hf : wrap64 nFees = nFees) :
    getProofOfStakeReward bestHeight supply nCoinAge nFees =
      add64 (getProofOfStakeReward bestHeight supply nCoinAge 0) nFees := by
  have key : ∀ x : ℤ, add64 x nFees = add64 (add64 x 0) nFees := by
    intro x; unfold add64; rw [wrap64_wrap_add, add_zero]
  have hz : nFees = add64 0 nFees := by unfold add64; rw [zero_add, hf]
  simp only [getProofOfStakeReward]
  split_ifs <;> first | exact key _ | exact hz

/-- What a proof-of-work block may mint without fees: 5000 coins at the switch-over heights. -/
def proofOfWorkSubsidy (bestMoneySupply nHeight : ℤ) : ℤ :=
  if 980950 ≤ nHeight ∧ nHeight ≤ 989999 then 5000 * coin
  else getProofOfWorkReward bestMoneySupply nHeight 0

theorem wrap64_proofOfWorkSubsidy (supply nHeight : ℤ) :
    wrap64 (proofOfWorkSubsidy supply nHeight) = proofOfWorkSubsidy supply nHeight := by
  unfold proofOfWorkSubsidy
  split_ifs
  · decide
  · by_cases hg : nHeight = nGenesisHeight
    · simp only [getProofOfWorkReward, hg, ↓reduceIte]
      decide
    · have h : 0 < getProofOfWorkReward supply nHeight 0 ∧ _ := getProofOfWorkReward_zero hg
      exact wrap64_of_range (by omega) (by omega)

/-- The fees cancel: what is left of the calculated reward is at most the subsidy. -/
theorem calculatedCoinbaseReward_sub_fees {supply nHeight nFees : ℤ} (h0 : 0 ≤ nFees)
    (h1 : nFees < 9223372036854775808) :
    sub64 (calculatedCoinbaseReward supply nHeight nFees) nFees ≤
      proofOfWorkSubsidy supply nHeight := by
  have hw := wrap64_proofOfWorkSubsidy supply nHeight
  unfold calculatedCoinbaseReward
  by_cases hs : nHeight < 990000 ∧ nHeight > 980949
  · rw [if_pos hs, sub64_add64_self]
    unfold proofOfWorkSubsidy at hw ⊢
    rw [if_pos (by omega)] at hw ⊢
    exact hw.le
  · rw [if_neg hs]
    by_cases hg : nHeight = nGenesisHeight
    · -- the genesis reward is a fixed amount, fees or not
      subst hg
      have hr : ∀ f, getProofOfWorkReward supply nGenesisHeight f = 100000000 := by
        intro f
        simp only [getProofOfWorkReward, ↓reduceIte]
        decide
      have hsub : sub64 100000000 nFees = 100000000 - nFees :=
        wrap64_of_range (by omega) (by omega)
      unfold proofOfWorkSubsidy
      rw [if_neg (by decide), hr, hr, hsub]
      omega
    · rw [getProofOfWorkReward_fees nFees hg, sub64_add64_self]
      unfold proofOfWorkSubsidy at hw ⊢
      rw [if_neg (by omega)] at hw ⊢
      exact hw.le

theorem getProofOfStakeReward_sub_fees {bestHeight supply nCoinAge nFees : ℤ} (h0 : 0 ≤ nFees)
    (h1 : nFees < 9223372036854775808) :
    sub64 (getProofOfStakeReward bestHeight supply nCoinAge nFees) nFees =
      getProofOfStakeReward bestHeight supply nCoinAge 0 := by
  rw [getProofOfStakeReward_fees nFees (wrap64_of_range (by omega) h1), sub64_add64_self]
  simp only [getProofOfStakeReward]
  split_ifs <;> first | exact wrap64_wrap64 _ | rfl

end Espers
