import Espers.Wallet.Sync
import Mathlib.Data.List.Sort

/-!
# The coins the wallet spends

`AvailableCoins` and `AvailableCoinsForStaking` collectCoins the outputs on offer.  `SelectCoins`
tries one of two algorithms with three depths; `SelectCoinsForStaking` takes the coins as they come.

The chain is seen through a `CoinView`; random numbers and the order of pointers are parameters.
-/

namespace Espers

open List Bool Function

/-- What the wallet sees of the chain. -/
structure CoinView where
  isFinalTx : CWalletTx → Bool
  isTrusted : CWalletTx → Bool
  isFromMe : CWalletTx → Bool
  depthInMainChain : CWalletTx → ℤ
  nCoinbaseMaturity : ℤ
  isProtocolV3 : ℕ → Bool
  nStakeMinConfirmations : ℤ
  nStakeMinAge : ℕ
  /-- `CoinWeightCost`. -/
  coinWeightCost : CWalletTx → ℕ → ℕ

/-- A coin of the wallet. -/
structure COutput where
  tx : CWalletTx
  /-- `tx->GetHash()`. -/
  hash : Uint256
  i : ℕ
  nDepth : ℤ
  deriving DecidableEq

/-- The outpoint of a coin. -/
def COutput.prevout (out : COutput) : COutPoint := ⟨out.hash, out.i⟩

/-- The output of a coin. -/
def COutput.txout (out : COutput) : CTxOut := out.tx.vout.getD out.i ⟨0, []⟩

/-- The value of a coin. -/
def COutput.nValue (out : COutput) : ℤ := out.txout.nValue

/-! ### The coins on offer -/

/-- `GetBlocksToMaturity`. -/
def CoinView.blocksToMaturity (V : CoinView) (wtx : CWalletTx) : ℤ :=
  if wtx.isCoinBase || wtx.isCoinStake then
    max 0 (V.nCoinbaseMaturity + 30 - V.depthInMainChain wtx)
  else 0

/-- The loop of `AvailableCoins` and `AvailableCoinsForStaking` over `mapWallet`. -/
def Wallet.offer (K : Keystore) (V : CoinView) (w : Wallet) (skips : CWalletTx → Bool)
    (selected : Uint256 → ℕ → Bool) : List COutput :=
  w.mapWallet.entries.flatMap fun it =>
    if skips it.2 then []
    else ((List.range it.2.vout.length).filter fun i =>
      (it.2.isSpent i = .ok false) && (it.2.vout[i]?.any fun txout => K.isMine txout &&
        decide (txout.nValue ≥ K.nMinimumInputValue)) && selected it.1 i).map fun i =>
        ⟨it.2, it.1, i, V.depthInMainChain it.2⟩

/-- The tests of `AvailableCoins` on a transaction. -/
def CoinView.skips (V : CoinView) (fOnlyConfirmed : Bool) (wtx : CWalletTx) : Bool :=
  !V.isFinalTx wtx || (fOnlyConfirmed && !V.isTrusted wtx) ||
    (wtx.isCoinBase && decide (V.blocksToMaturity wtx > 0)) ||
    (wtx.isCoinStake && decide (V.blocksToMaturity wtx > 0)) || decide (V.depthInMainChain wtx < 0)

/-- The tests of `AvailableCoinsForStaking` on a transaction. -/
def CoinView.skipsForStaking (V : CoinView) (nSpendTime : ℕ) (wtx : CWalletTx) : Bool :=
  decide (V.depthInMainChain wtx < 1) ||
    (if V.isProtocolV3 nSpendTime then decide (V.depthInMainChain wtx < V.nStakeMinConfirmations)
      else decide ((wtx.nTime + V.nStakeMinAge) % 2 ^ 32 > nSpendTime)) ||
    decide (V.blocksToMaturity wtx > 0)

/-- The test of the coin control; without selected coins every coin passes. -/
def isSelected (coinControl : List COutPoint) (hash : Uint256) (i : ℕ) : Bool :=
  coinControl.isEmpty || coinControl.contains ⟨hash, i⟩

variable {selected : Uint256 → ℕ → Bool} {skips : CWalletTx → Bool} {K : Keystore} {w : Wallet}

theorem Wallet.map_offer {V : CoinView} :
    (w.offer K V skips selected).map COutput.prevout = w.availableCoins K skips selected := by
  rw [offer, availableCoins, map_flatMap]
  congr 1
  funext it
  split_ifs
  · rfl
  · rw [map_map]
    rfl

/-- What holds of a coin on offer: its transaction is the wallet's, and the output is the wallet's
own, worth enough and unspent. -/
structure Wallet.Offers (K : Keystore) (w : Wallet) (out : COutput) : Prop where
  lookup : w.mapWallet.lookup out.hash = some out.tx
  index : out.i < out.tx.vout.length
  isMine : K.isMine out.txout = true
  nValue : K.nMinimumInputValue ≤ out.nValue
  unspent : out.tx.isSpent out.i = .ok false

theorem Wallet.offers_of_mem {V : CoinView} {out : COutput} (h : out ∈ w.offer K V skips selected) :
    w.Offers K out := by
  obtain ⟨it, hit, hout⟩ := mem_flatMap.1 h
  split_ifs at hout
  · cases hout
  obtain ⟨i, hi, rfl⟩ := mem_map.1 hout
  obtain ⟨hrange, hi⟩ := mem_filter.1 hi
  have hlength := mem_range.1 hrange
  rw [getElem?_eq_getElem hlength, Option.any_some, and_eq_true, and_eq_true,
    and_eq_true, decide_eq_true_eq, decide_eq_true_eq] at hi
  obtain ⟨⟨hunspent, hmine, hvalue⟩, -⟩ := hi
  have htxout : it.2.vout.getD i ⟨0, []⟩ = it.2.vout[i] := by
    rw [getD_eq_getElem?_getD, getElem?_eq_getElem hlength, Option.getD_some]
  constructor
  · exact AList.mem_lookup_iff.2 hit
  · exact hlength
  · rw [COutput.txout, htxout]
    exact hmine
  · rw [COutput.nValue, COutput.txout, htxout]
    exact hvalue
  · exact hunspent

/-- No outpoint is offered twice. -/
theorem Wallet.nodup_offer {V : CoinView} :
    ((w.offer K V skips selected).map COutput.prevout).Nodup := by
  have hkeys := nodupKeys_iff_pairwise.1 w.mapWallet.nodupKeys
  rw [offer, map_flatMap, nodup_flatMap]
  constructor
  · intro it _
    split_ifs
    · exact nodup_nil
    · rw [map_map]
      refine List.Nodup.map (fun i j hij => ?_) (nodup_range.filter _)
      exact (COutPoint.mk.inj hij).2
  · refine hkeys.imp fun {it it'} hne o ho ho' => hne ?_
    obtain ⟨out, hout, rfl⟩ := mem_map.1 ho
    obtain ⟨out', hout', heq⟩ := mem_map.1 ho'
    split_ifs at hout hout'
    · cases hout
    · cases hout
    · cases hout'
    · obtain ⟨i, -, rfl⟩ := mem_map.1 hout
      obtain ⟨i', -, rfl⟩ := mem_map.1 hout'
      exact (COutPoint.mk.inj heq).1.symm

/-- The value of an output that the wallet has. -/
def Wallet.valueAt (w : Wallet) (o : COutPoint) : ℤ :=
  ((w.mapWallet.lookup o.hash).map fun wtx => (wtx.vout.getD o.n ⟨0, []⟩).nValue).getD 0

/-- The value of the inputs of a transaction. -/
def Wallet.inputValue (w : Wallet) (tx : CTransaction) : ℤ :=
  (tx.vin.map fun txin => w.valueAt txin.prevout).sum

theorem Wallet.Offers.valueAt {out : COutput} (h : w.Offers K out) :
    w.valueAt out.prevout = out.nValue := by
  rw [Wallet.valueAt, COutput.prevout, h.lookup]
  rfl

/-! ### `SelectCoinsMinConf` -/

/-- Random draws. -/
structure Draws where
  shuffle : List COutput → List COutput
  shuffle_perm : ∀ vCoins, (shuffle vCoins).Perm vCoins
  /-- `insecure_rand()&1` for a coin, in a round of the subset search. -/
  bit : ℕ → ℕ → Bool

/-- The coin is deep enough, and its time is not after that of the transaction. -/
def CoinView.eligible (V : CoinView) (nSpendTime : ℕ) (nConfMine nConfTheirs : ℤ) (out : COutput) :
    Bool :=
  !decide (out.nDepth < if V.isFromMe out.tx then nConfMine else nConfTheirs) &&
    !decide (out.tx.nTime > nSpendTime)

/-- What the first loop of `SelectCoinsMinConf` has collected. -/
structure Collected where
  coinLowestLarger : Option COutput
  vValue : List COutput
  nTotalLower : ℤ

/-- `std::numeric_limits<int64_t>::max()`. -/
def int64Max : ℤ := 9223372036854775807

/-- The first loop of `SelectCoinsMinConf`; it ends at a coin of exactly the target value. -/
def collectCoins (V : CoinView) (nTargetValue : ℤ) (nSpendTime : ℕ) (nConfMine nConfTheirs : ℤ) :
    List COutput → Collected → COutput ⊕ Collected
  | [], c => .inr c
  | out :: vCoins, c =>
    if !V.eligible nSpendTime nConfMine nConfTheirs out then
      collectCoins V nTargetValue nSpendTime nConfMine nConfTheirs vCoins c
    else if out.nValue = nTargetValue then .inl out
    else if out.nValue < nTargetValue + cent then
      collectCoins V nTargetValue nSpendTime nConfMine nConfTheirs vCoins
        { c with vValue := c.vValue ++ [out], nTotalLower := c.nTotalLower + out.nValue }
    else if out.nValue < (c.coinLowestLarger.map COutput.nValue).getD int64Max then
      collectCoins V nTargetValue nSpendTime nConfMine nConfTheirs vCoins
        { c with coinLowestLarger := some out }
    else collectCoins V nTargetValue nSpendTime nConfMine nConfTheirs vCoins c

/-- The variables of a round of `ApproximateBestSubset`. -/
structure SubsetRound where
  vfIncluded : ℕ → Bool
  nTotal : ℤ
  fReachedTarget : Bool
  vfBest : ℕ → Bool
  nBest : ℤ

/-- One coin of a pass of `ApproximateBestSubset`. -/
def subsetCoin (nTargetValue : ℤ) (wants : ℕ → SubsetRound → Bool) (s : SubsetRound) (i : ℕ)
    (out : COutput) : SubsetRound :=
  if wants i s then
    let nTotal := s.nTotal + out.nValue
    let vfIncluded := update s.vfIncluded i true
    if nTotal ≥ nTargetValue then
      { vfIncluded := update vfIncluded i false
        nTotal := nTotal - out.nValue
        fReachedTarget := true
        vfBest := if nTotal < s.nBest then vfIncluded else s.vfBest
        nBest := if nTotal < s.nBest then nTotal else s.nBest }
    else { s with vfIncluded, nTotal }
  else s

/-- A pass of `ApproximateBestSubset` over the coins. -/
def subsetPass (nTargetValue : ℤ) (wants : ℕ → SubsetRound → Bool) :
    ℕ → List COutput → SubsetRound → SubsetRound
  | _, [], s => s
  | i, out :: vValue, s =>
    subsetPass nTargetValue wants (i + 1) vValue (subsetCoin nTargetValue wants s i out)

/-- The rounds of `ApproximateBestSubset`. -/
def subsetRounds (D : Draws) (vValue : List COutput) (nTargetValue : ℤ) (nRep : ℕ) :
    ℕ → (ℕ → Bool) × ℤ → (ℕ → Bool) × ℤ
  | 0, best => best
  | iterations + 1, best =>
    if best.2 = nTargetValue then best
    else
      let s := subsetPass nTargetValue (fun i _ => D.bit nRep i) 0 vValue
        ⟨fun _ => false, 0, false, best.1, best.2⟩
      let s := if s.fReachedTarget then s
        else subsetPass nTargetValue (fun i s => !s.vfIncluded i) 0 vValue s
      subsetRounds D vValue nTargetValue (nRep + 1) iterations (s.vfBest, s.nBest)

/-- `ApproximateBestSubset`: which coins are best, and their value. -/
def approximateBestSubset (D : Draws) (vValue : List COutput) (nTotalLower nTargetValue : ℤ) :
    (ℕ → Bool) × ℤ := subsetRounds D vValue nTargetValue 0 1000 (fun _ => true, nTotalLower)

/-- The coins with a flag. -/
def flagged (vfBest : ℕ → Bool) (vValue : List COutput) : List COutput :=
  (vValue.zipIdx.filter fun e => vfBest e.2).map Prod.fst

/-- The answer of a selection: the coins and their value, or `none` when it returns false. -/
abbrev Selection := Option (List COutput × ℤ)

/-- The coins, with their value. -/
def selectAll (setCoinsRet : List COutput) : Selection :=
  some (setCoinsRet, (setCoinsRet.map COutput.nValue).sum)

/-- `SelectCoinsMinConf`. -/
def selectCoinsMinConf (V : CoinView) (D : Draws) (nTargetValue : ℤ) (nSpendTime : ℕ)
    (nConfMine nConfTheirs : ℤ) (vCoins : List COutput) : Selection :=
  match collectCoins V nTargetValue nSpendTime nConfMine nConfTheirs (D.shuffle vCoins)
    ⟨none, [], 0⟩ with
  | .inl out => selectAll [out]
  | .inr c =>
    if c.nTotalLower = nTargetValue then selectAll c.vValue
    else if c.nTotalLower < nTargetValue then
      match c.coinLowestLarger with
      | none => none
      | some out => selectAll [out]
    else
      -- the largest value comes first
      let vValue := c.vValue.mergeSort fun a b => decide (a.nValue ≥ b.nValue)
      let best := approximateBestSubset D vValue c.nTotalLower nTargetValue
      let best := if best.2 ≠ nTargetValue ∧ c.nTotalLower ≥ nTargetValue + cent then
        approximateBestSubset D vValue c.nTotalLower (nTargetValue + cent) else best
      match c.coinLowestLarger with
      | none => selectAll (flagged best.1 vValue)
      | some out =>
        if (best.2 ≠ nTargetValue ∧ best.2 < nTargetValue + cent) ∨ out.nValue ≤ best.2 then
          selectAll [out]
        else selectAll (flagged best.1 vValue)

/-! ### `SelectCoinsMinConfByCoinAge` -/

/-- A coin with its cost, or a bundle of small coins. -/
structure Item where
  value : ℤ
  cost : ℕ
  coins : List COutput

/-- The first loop of `SelectCoinsMinConfByCoinAge`: the cheapest coin that is larger, the smaller
ones, and their value. -/
def collectByAge (V : CoinView) (nTargetValue : ℤ) (nSpendTime : ℕ) (nConfMine nConfTheirs : ℤ) :
    List COutput → Collected → Collected
  | [], c => c
  | out :: mCoins, c =>
    if !V.eligible nSpendTime nConfMine nConfTheirs out then
      collectByAge V nTargetValue nSpendTime nConfMine nConfTheirs mCoins c
    else if out.nValue < nTargetValue + cent then
      collectByAge V nTargetValue nSpendTime nConfMine nConfTheirs mCoins
        { c with vValue := c.vValue ++ [out], nTotalLower := c.nTotalLower + out.nValue }
    else if V.coinWeightCost out.tx out.i <
        (c.coinLowestLarger.map fun out => V.coinWeightCost out.tx out.i).getD int64Max.toNat then
      collectByAge V nTargetValue nSpendTime nConfMine nConfTheirs mCoins
        { c with coinLowestLarger := some out }
    else collectByAge V nTargetValue nSpendTime nConfMine nConfTheirs mCoins c

/-- Small coins are bundled until a bundle is worth `denom`; the rest is left over. -/
def bundle (V : CoinView) (denom : ℤ) (pBundle : Item) : List COutput → List Item × List COutput
  | [] => ([], pBundle.coins)
  | out :: small =>
    let pBundle : Item := ⟨pBundle.value + out.nValue,
      pBundle.cost + V.coinWeightCost out.tx out.i, pBundle.coins ++ [out]⟩
    if pBundle.value ≥ denom then
      (pBundle :: (bundle V denom ⟨0, 0, []⟩ small).1, (bundle V denom ⟨0, 0, []⟩ small).2)
    else bundle V denom pBundle small

/-- The items are picked from the front while the matrix would have no columns: the rest of the
items, their normalized value, and what was picked. -/
def prepick (nTargetValue denom : ℤ) :
    List Item → ℤ → List COutput × ℤ → List Item × ℤ × List COutput × ℤ
  | [], nTotalValue, ret => ([], nTotalValue, ret)
  | item :: items, nTotalValue, ret =>
    if (nTargetValue - ret.2).tdiv denom ≥ nTotalValue then
      prepick nTargetValue denom items (nTotalValue - item.value.tdiv denom)
        (ret.1 ++ item.coins, ret.2 + item.value)
    else (item :: items, nTotalValue, ret)

/-- The number of columns an item takes. -/
def Item.weight (denom : ℤ) (item : Item) : ℕ := (item.value.tdiv denom).toNat

/-- A row of the matrix `M`: the largest cost that can be left in a capacity; the last item
first. -/
def leftCost (denom : ℤ) : List Item → ℕ → ℕ
  | [], _ => 0
  | item :: items, j =>
    if item.weight denom ≤ j then
      max (leftCost denom items j)
        ((leftCost denom items (j - item.weight denom) + item.cost) % 2 ^ 64)
    else leftCost denom items j

/-- A row of the matrix `B`: the capacity before the item. -/
def before (denom : ℤ) (item : Item) (items : List Item) (j : ℕ) : ℕ :=
  if item.weight denom ≤ j ∧
      leftCost denom items j < (leftCost denom items (j - item.weight denom) + item.cost) % 2 ^
      64 then
    j - item.weight denom
  else j

/-- The optimal solution is traced back; the last item first. -/
def traceBack (denom : ℤ) : List Item → ℕ → List COutput × ℤ → List COutput × ℤ
  | [], _, ret => ret
  | item :: items, nPrev, ret =>
    if nPrev = before denom item items nPrev then
      traceBack denom items (before denom item items nPrev)
        (ret.1 ++ item.coins, ret.2 + item.value)
    else traceBack denom items (before denom item items nPrev) ret

/-- The last loop of `SelectCoinsMinConfByCoinAge`: small coins are added until the target is
met. -/
def addLeftOver (nTargetValue : ℤ) : List COutput → List COutput × ℤ → List COutput × ℤ
  | [], ret => ret
  | out :: rest, ret =>
    if ret.2 < nTargetValue then addLeftOver nTargetValue rest (ret.1 ++ [out], ret.2 + out.nValue)
    else ret

/-- The dynamic programming of `SelectCoinsMinConfByCoinAge`. -/
def solve (nTargetValue denom : ℤ) (items : List Item) (nTotalValue : ℤ) (rest : List COutput)
    (ret : List COutput × ℤ) : Except Stop Selection :=
  let nAppend : ℤ := if (nTargetValue - ret.2).tmod denom ≠ 0 then 0 else 1
  let columns := nTotalValue - (nTargetValue - ret.2).tdiv denom + nAppend
  if columns < 0 then .error (.exception "matrix : too many columns")
  else .ok (some (addLeftOver nTargetValue rest
    (traceBack denom items.reverse (columns - 1).toNat ret)))

/-- A coin that is an item of its own. -/
def CoinView.single (V : CoinView) (out : COutput) : Item :=
  ⟨out.nValue, V.coinWeightCost out.tx out.i, [out]⟩

/-- The approximation of `SelectCoinsMinConfByCoinAge`: coins of less than `denom` are bundled. -/
def solveBundled (V : CoinView) (nTargetValue denom : ℤ) (vValue : List COutput) :
    Except Stop Selection :=
  let bundles := bundle V denom ⟨0, 0, []⟩ (vValue.filter fun out => !decide (out.nValue ≥ denom))
  let items := (vValue.filter fun out => decide (out.nValue ≥ denom)).map V.single ++ bundles.1
  let nTotalValue := (items.map fun item => item.value.tdiv denom).sum
  if nTargetValue.tdiv denom ≥ nTotalValue then
    let picked := prepick nTargetValue denom items nTotalValue ([], 0)
    if picked.2.2.2 ≥ nTargetValue then .ok (some picked.2.2)
    else solve nTargetValue denom picked.1 picked.2.1 bundles.2 picked.2.2
  else solve nTargetValue denom items nTotalValue bundles.2 ([], 0)

/-- `SelectCoinsMinConfByCoinAge`. -/
def selectCoinsMinConfByCoinAge (V : CoinView) (nTargetValue : ℤ) (nSpendTime : ℕ)
    (nConfMine nConfTheirs : ℤ) (vCoins : List COutput) : Except Stop Selection :=
  let cost := fun out : COutput => V.coinWeightCost out.tx out.i
  -- the smallest cost comes first
  let mCoins := vCoins.mergeSort fun a b => decide (cost a ≤ cost b)
  let c := collectByAge V nTargetValue nSpendTime nConfMine nConfTheirs mCoins ⟨none, [], 0⟩
  if c.nTotalLower < nTargetValue then
    match c.coinLowestLarger with
    | none => .ok none
    | some out => .ok (selectAll [out])
  else if c.vValue.isEmpty then .error (.crash "vValue[0]")
  else if c.nTotalLower = nTargetValue then .ok (selectAll c.vValue)
  else
    let nGCD : ℤ := c.vValue.foldl (fun g out => (Int.gcd out.nValue g : ℤ)) 0
    let nGCD : ℤ := Int.gcd nTargetValue nGCD
    let approx := (wrap64 (c.vValue.length * (c.nTotalLower - nTargetValue))).tdiv 25
    if approx > nGCD then solveBundled V nTargetValue approx c.vValue
    else solve nTargetValue nGCD (c.vValue.map V.single) (c.nTotalLower.tdiv nGCD) [] ([], 0)

/-- One attempt of `SelectCoins`, with the algorithm that was asked for. -/
def selectOnce (V : CoinView) (D : Draws) (fMinimizeCoinAge : Bool) (nTargetValue : ℤ)
    (nSpendTime : ℕ) (nConfMine nConfTheirs : ℤ) (vCoins : List COutput) : Except Stop Selection :=
  if fMinimizeCoinAge then
    selectCoinsMinConfByCoinAge V nTargetValue nSpendTime nConfMine nConfTheirs vCoins
  else .ok (selectCoinsMinConf V D nTargetValue nSpendTime nConfMine nConfTheirs vCoins)

/-- `SelectCoins`; `draws` are those of the three attempts. -/
def selectCoins (K : Keystore) (V : CoinView) (w : Wallet) (draws : ℕ → Draws)
    (fMinimizeCoinAge : Bool) (nTargetValue : ℤ) (nSpendTime : ℕ) (coinControl : List COutPoint) :
    Except Stop Selection :=
  let vCoins := w.offer K V (V.skips true) (isSelected coinControl)
  if !coinControl.isEmpty then
    let nValueRet := (vCoins.map COutput.nValue).sum
    .ok (if nValueRet ≥ nTargetValue then some (vCoins, nValueRet) else none)
  else do
    match ← selectOnce V (draws 0) fMinimizeCoinAge nTargetValue nSpendTime 1 10 vCoins with
    | some ret => .ok (some ret)
    | none =>
      match ← selectOnce V (draws 1) fMinimizeCoinAge nTargetValue nSpendTime 1 1 vCoins with
      | some ret => .ok (some ret)
      | none => selectOnce V (draws 2) fMinimizeCoinAge nTargetValue nSpendTime 0 1 vCoins

/-- The loop of `SelectCoinsForStaking`. -/
def takeForStaking (nTargetValue : ℤ) : List COutput → List COutput × ℤ → List COutput × ℤ
  | [], ret => ret
  | out :: vCoins, ret =>
    if ret.2 ≥ nTargetValue then ret
    else if out.nValue ≥ nTargetValue then (ret.1 ++ [out], ret.2 + out.nValue)
    else takeForStaking nTargetValue vCoins (ret.1 ++ [out], ret.2 + out.nValue)

/-- `SelectCoinsForStaking`. -/
def selectCoinsForStaking (K : Keystore) (V : CoinView) (w : Wallet) (nTargetValue : ℤ)
    (nSpendTime : ℕ) : List COutput × ℤ :=
  takeForStaking nTargetValue (w.offer K V (V.skipsForStaking nSpendTime) fun _ _ => true) ([], 0)

/-- What `CreateTransaction` depends on besides the coins. -/
structure SendContext where
  nTransactionFee : ℤ
  maxStandardTxSize : ℕ
  /-- `SignSignature` for every input. -/
  signs : List COutput → ℤ → Bool
  /-- The size of the signed transaction. -/
  nBytes : List COutput → ℤ → ℕ
  /-- `GetMinFee(1, GMF_SEND, nBytes)`. -/
  getMinFee : ℕ → ℤ
  /-- The draws of each round, for the three attempts to select. -/
  draws : ℤ → ℕ → Draws
  fMinimizeCoinAge : Bool

/-- The loop of `CreateTransaction`, which pays more until the fee is enough: the coins it spends,
or `none` when it returns false. -/
def createTransactionLoop (K : Keystore) (V : CoinView) (w : Wallet) (C : SendContext) (nValue : ℤ)
    (nTime : ℕ) (coinControl : List COutPoint) : ℕ → ℤ → Except Stop (Option (List COutput))
  | 0, _ => .error (.crash "CreateTransaction : the loop does not end")
  | fuel + 1, nFeeRet => do
    match ← selectCoins K V w (C.draws nFeeRet) C.fMinimizeCoinAge (nValue + nFeeRet) nTime
      coinControl with
    | none => .ok none
    | some (setCoins, nValueIn) =>
      let nChange := nValueIn - nValue - nFeeRet
      if !C.signs setCoins nChange then .ok none
      else if C.nBytes setCoins nChange ≥ C.maxStandardTxSize then .ok none
      else
        let nPayFee := C.nTransactionFee * (1 + (C.nBytes setCoins nChange : ℤ) / 1000)
        let nMinFee := C.getMinFee (C.nBytes setCoins nChange)
        if nFeeRet < max nPayFee nMinFee then
          createTransactionLoop K V w C nValue nTime coinControl fuel (max nPayFee nMinFee)
        else .ok (some setCoins)

/-- The total value of the payments, when none is negative on the way. -/
def paymentTotal (nValue : ℤ) : List ℤ → Option ℤ
  | [] => if nValue < 0 then none else some nValue
  | amount :: vecSend => if nValue < 0 then none else paymentTotal (nValue + amount) vecSend

/-- `CreateTransaction`: the coins that the new transaction spends. -/
def createTransaction (K : Keystore) (V : CoinView) (w : Wallet) (C : SendContext)
    (vecSend : List ℤ) (nTime : ℕ) (coinControl : List COutPoint) (fuel : ℕ) :
    Except Stop (Option (List COutput)) :=
  if vecSend.isEmpty then .ok none
  else
    match paymentTotal 0 vecSend with
    | none => .ok none
    | some nValue => createTransactionLoop K V w C nValue nTime coinControl fuel C.nTransactionFee

/-! ### `CreateCoinStake` -/

/-- What `CreateCoinStake` depends on besides the coins. -/
structure StakeContext where
  nBalance : ℤ
  nReserveBalance : ℤ
  nTime : ℕ
  nSearchInterval : ℤ
  /-- `CheckKernel`, with the time of the block that has the coin. -/
  checkKernel : COutPoint → ℤ → Option ℤ
  /-- The script that the stake pays to: `Solver` and `GetKey` for the script of the kernel. -/
  stakeScript : CScript → Option CScript
  /-- The order of the set of coins, by pointers. -/
  arrange : List COutput → List COutput
  arrange_perm : ∀ setCoins, (arrange setCoins).Perm setCoins
  nStakeSplitAge : ℤ
  nStakeSplitThreshold : ℤ
  nStakeCombineThreshold : ℤ

/-- `GetWeight`. -/
def CoinView.getWeight (V : CoinView) (nIntervalBeginning nIntervalEnd : ℤ) : ℤ :=
  nIntervalEnd - nIntervalBeginning - V.nStakeMinAge

/-- The search for a kernel backward in time; it ends at the first time that fits. -/
def searchKernel (C : StakeContext) (prevout : COutPoint) : ℕ → ℕ → Option (ℕ × ℤ)
  | _, 0 => none
  | n, rounds + 1 =>
    match C.checkKernel prevout (C.nTime - n) with
    | some nBlockTime => some (n, nBlockTime)
    | none => searchKernel C prevout (n + 1) rounds

/-- The first loop of `CreateCoinStake`: the first coin that is a kernel whose script is supported,
with how far back in time, the time of its block, and the script that is paid to. -/
def findKernel (C : StakeContext) : List COutput → Option (COutput × ℕ × ℤ × CScript)
  | [] => none
  | out :: setCoins =>
    match searchKernel C out.prevout 0 (min C.nSearchInterval 60).toNat with
    | none => findKernel C setCoins
    | some (n, nBlockTime) =>
      match C.stakeScript out.txout.scriptPubKey with
      | none => findKernel C setCoins
      | some scriptPubKeyOut => some (out, n, nBlockTime, scriptPubKeyOut)

/-- The second loop of `CreateCoinStake`: coins of the same script are combined. -/
def combineCoins (V : CoinView) (C : StakeContext) (kernel : COutput) (scriptPubKeyOut : CScript)
    (nTime : ℤ) : List COutput → List COutput × ℤ → List COutput × ℤ
  | [], ret => ret
  | out :: setCoins, ret =>
    if (out.txout.scriptPubKey = kernel.txout.scriptPubKey ∨ out.txout.scriptPubKey =
      scriptPubKeyOut) ∧ out.hash ≠ kernel.hash then
      if ret.1.length ≥ 100 then ret
      else if ret.2 ≥ C.nStakeCombineThreshold then ret
      else if ret.2 + out.nValue > C.nBalance - C.nReserveBalance then ret
      else if out.nValue ≥ C.nStakeCombineThreshold then
        combineCoins V C kernel scriptPubKeyOut nTime setCoins ret
      else if !V.isProtocolV3 nTime.toNat ∧ V.getWeight out.tx.nTime nTime < V.nStakeMinAge then
        combineCoins V C kernel scriptPubKeyOut nTime setCoins ret
      else combineCoins V C kernel scriptPubKeyOut nTime setCoins (ret.1 ++ [out],
        ret.2 + out.nValue)
    else combineCoins V C kernel scriptPubKeyOut nTime setCoins ret

/-- `CreateCoinStake` up to the reward: the coins that the new coinstake spends, the kernel
first. -/
def createCoinStake (K : Keystore) (V : CoinView) (w : Wallet) (C : StakeContext) :
    Option (List COutput) :=
  if C.nBalance ≤ C.nReserveBalance then none
  else
    let setCoins :=
      C.arrange (selectCoinsForStaking K V w (C.nBalance - C.nReserveBalance) C.nTime).1
    match findKernel C setCoins with
    | none => none
    | some (kernel, n, nBlockTime, scriptPubKeyOut) =>
      if kernel.nValue = 0 ∨ kernel.nValue > C.nBalance - C.nReserveBalance then none
      else
        let nTime : ℤ := C.nTime - n
        -- a stake that was split takes no more inputs
        if V.getWeight nBlockTime nTime < C.nStakeSplitAge ∨
          kernel.nValue > C.nStakeSplitThreshold then
          some [kernel]
        else some (combineCoins V C kernel scriptPubKeyOut nTime setCoins
          ([kernel], kernel.nValue)).1

end Espers
