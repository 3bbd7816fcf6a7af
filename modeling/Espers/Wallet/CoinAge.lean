import Espers.Wallet.Select

/-!
# The vectors of the selection by coin age

`SelectCoinsMinConfByCoinAge` leaves as much coin age as it can in the wallet: a knapsack over the
values divided by a unit, with the small coins bundled inside the vector, some coins picked before
the matrix is filled, and the solution traced back.

* `bundleLoop_spec` : what the vector and the bundles hold.
* `Bundles.Laid.prepick` : the first items are picked with every index in range.
* `Bundles.Laid.solve` : the matrix and its trace agree with the recursion over the items, and every
  index is in range.
-/

namespace Espers

open Exec List Int

/-! ### The source -/

/-- An element of a vector. -/
def vectorAt {β : Type*} (v : List β) (i : ℕ) (what : String) : Except Stop β :=
  match v[i]? with
  | none => .error (.crash what)
  | some x => .ok x

/-- `gcd`. -/
def int64Gcd (n m : ℤ) : ℤ := if m = 0 then n else int64Gcd m (n.tmod m)
termination_by m.natAbs
decreasing_by
  rw [natAbs_tmod]
  exact Nat.mod_lt _ (by omega)

/-- A coin of `vValue`: its value and cost, which a bundle overwrites, and its pointer and index. -/
structure CostCoin where
  value : ℤ
  cost : ℕ
  coin : COutput

def CoinView.costCoin (V : CoinView) (out : COutput) : CostCoin :=
  ⟨out.nValue, V.coinWeightCost out.tx out.i, out⟩

/-- `boost::sort` by the cost; it may order equal costs in any way. -/
structure CostOrder (V : CoinView) where
  sort : List COutput → List COutput
  sort_perm : ∀ coins, (sort coins).Perm coins
  sort_pairwise : ∀ coins, (sort coins).Pairwise fun a b =>
    V.coinWeightCost a.tx a.i ≤ V.coinWeightCost b.tx b.i

/-- The first loop of `SelectCoinsMinConfByCoinAge`, with `nTargetValue + CENT` as an `int64_t`. -/
def collectByAge64 (V : CoinView) (nTargetValue : ℤ) (nSpendTime : ℕ) (nConfMine nConfTheirs : ℤ) :
    List COutput → Collected → Collected
  | [], c => c
  | out :: mCoins, c =>
    if !V.eligible nSpendTime nConfMine nConfTheirs out then
      collectByAge64 V nTargetValue nSpendTime nConfMine nConfTheirs mCoins c
    else if out.nValue < add64 nTargetValue cent then
      collectByAge64 V nTargetValue nSpendTime nConfMine nConfTheirs mCoins
        { c with vValue := c.vValue ++ [out], nTotalLower := c.nTotalLower + out.nValue }
    else if V.coinWeightCost out.tx out.i <
        (c.coinLowestLarger.map fun out => V.coinWeightCost out.tx out.i).getD int64Max.toNat then
      collectByAge64 V nTargetValue nSpendTime nConfMine nConfTheirs mCoins
        { c with coinLowestLarger := some out }
    else collectByAge64 V nTargetValue nSpendTime nConfMine nConfTheirs mCoins c

/-- `setCoinsRet.insert`. -/
def insertCoin (setCoinsRet : List COutput) (out : COutput) : List COutput :=
  if out.prevout ∈ setCoinsRet.map COutput.prevout then setCoinsRet else setCoinsRet ++ [out]

/-- Coins are inserted into `setCoinsRet`, and a value is added to `nValueRet`. -/
def takeCoins (coins : List COutput) (value : ℤ) (ret : List COutput × ℤ) : List COutput × ℤ :=
  (coins.foldl insertCoin ret.1, ret.2 + value)

/-- `vValue` with its bundles. -/
structure Bundles where
  vValue : List CostCoin
  nBeginBundles : ℕ
  /-- Where the bundles begin in `vValue`, and where the last one ends. -/
  vZeroValueBundles : List ℕ
  nTotalCoinValues : ℕ

/-- A bundle is complete, and overwrites the value and the cost of an earlier coin. -/
def Bundles.close (s : Bundles) (first : CostCoin) (pBundle : ℤ × ℕ) (itZeroValue : ℕ) :
    Bundles where
  vValue := s.vValue.set s.nTotalCoinValues { first with value := pBundle.1, cost := pBundle.2 }
  nBeginBundles := s.nBeginBundles
  vZeroValueBundles := s.vZeroValueBundles ++ [itZeroValue]
  nTotalCoinValues := s.nTotalCoinValues + 1

/-- The loop over the small coins, of which so many are left. -/
def bundleLoop (denom : ℤ) : ℕ → ℕ → ℤ × ℕ → Bundles → Except Stop Bundles
  | 0, _, _, s => .ok s
  | left + 1, itZeroValue, pBundle, s => do
    let small ← vectorAt s.vValue itZeroValue "itZeroValue->first"
    let pBundle := (pBundle.1 + small.value, pBundle.2 + small.cost)
    if pBundle.1 ≥ denom then do
      let first ← vectorAt s.vValue s.nTotalCoinValues "vValue[nTotalCoinValues].first"
      bundleLoop denom left (itZeroValue + 1) (0, 0) (s.close first pBundle (itZeroValue + 1))
    else bundleLoop denom left (itZeroValue + 1) pBundle s

/-- The small coins are moved to the end, and bundled. -/
def bundleCoins (denom : ℤ) (vValue : List CostCoin) : Except Stop Bundles :=
  let large := vValue.filter fun e => decide (e.value ≥ denom)
  let small := vValue.filter fun e => !decide (e.value ≥ denom)
  bundleLoop denom small.length large.length (0, 0)
    ⟨large ++ small, large.length, [large.length], large.length⟩

namespace Bundles

/-- The coins of an item. -/
def coinsAt (s : Bundles) (nValue : ℕ) : Except Stop (List COutput) :=
  if nValue ≥ s.nBeginBundles then do
    let it ← vectorAt s.vZeroValueBundles (nValue - s.nBeginBundles) "vZeroValueBundles[nBundle]"
    let last ← vectorAt s.vZeroValueBundles (nValue - s.nBeginBundles + 1)
      "vZeroValueBundles[nBundle + 1]"
    if it ≤ last ∧ last ≤ s.vValue.length then
      .ok (((s.vValue.take last).drop it).map CostCoin.coin)
    else .error (.crash "it->second")
  else do
    let single ← vectorAt s.vValue nValue "vValue[nValue].second"
    .ok [single.coin]

/-- An item is picked. -/
def pick (s : Bundles) (nValue : ℕ) (ret : List COutput × ℤ) : Except Stop (List COutput × ℤ) := do
  let coins ← s.coinsAt nValue
  let item ← vectorAt s.vValue nValue "vValue[nValue].first"
  .ok (takeCoins coins item.value ret)

/-- The total value after the integer division. -/
def normalized (denom : ℤ) (s : Bundles) : Except Stop ℤ :=
  (List.range s.nTotalCoinValues).foldlM (fun nTotalValue i => do
    let item ← vectorAt s.vValue i "vValue[i].first"
    .ok (nTotalValue + item.value.tdiv denom)) 0

/-- The loop that picks the first items, of which so many are left. -/
def prepick (nTargetValue denom : ℤ) (s : Bundles) :
    ℕ → ℕ → ℤ → List COutput × ℤ → Except Stop (ℕ × ℤ × List COutput × ℤ)
  | 0, nBeginCoinValues, nTotalValue, ret => .ok (nBeginCoinValues, nTotalValue, ret)
  | left + 1, nBeginCoinValues, nTotalValue, ret =>
    if (nTargetValue - ret.2).tdiv denom ≥ nTotalValue then do
      let item ← vectorAt s.vValue nBeginCoinValues "vValue[nBeginCoinValues].first"
      let ret ← s.pick nBeginCoinValues ret
      prepick nTargetValue denom s left (nBeginCoinValues + 1)
        (nTotalValue - item.value.tdiv denom) ret
    else .ok (nBeginCoinValues, nTotalValue, ret)

end Bundles

/-- A row of the matrices `M` and `B`. -/
def fillRow (nWeight nValue : ℕ) (row : List ℕ) : Except Stop (List (ℕ × ℕ)) :=
  (List.range row.length).mapM fun j => do
    let kept ← vectorAt row j "M(i - 1, j)"
    if nWeight ≤ j then do
      let left ← vectorAt row (j - nWeight) "M(i - 1, j - nWeight)"
      let nStep := (left + nValue) % 2 ^ 64
      .ok (if kept ≥ nStep then (kept, j) else (nStep, j - nWeight))
    else .ok (kept, j)

namespace Bundles

/-- The next row; `M` is kept as its last row, `B` as a list of rows. -/
def nextRow (denom : ℤ) (s : Bundles) (nBeginCoinValues : ℕ) (m : List ℕ × List (List ℕ)) (i : ℕ) :
    Except Stop (List ℕ × List (List ℕ)) := do
  let item ← vectorAt s.vValue (nBeginCoinValues + i) "vValue[nBeginCoinValues + i - 1].first"
  let row ← fillRow ((item.value.tdiv denom) % 2 ^ 64).toNat (item.cost % 2 ^ 64) m.1
  .ok (row.map Prod.fst, m.2 ++ [row.map Prod.snd])

/-- The optimal solution is traced back. -/
def traceBack (s : Bundles) (nBeginCoinValues : ℕ) (B : List (List ℕ)) :
    ℕ → ℤ → List COutput × ℤ → Except Stop (List COutput × ℤ)
  | 0, _, ret => .ok ret
  | i + 1, nPrev, ret => do
    let row ← vectorAt B i "B(i, nPrev)"
    if nPrev < 0 then .error (.crash "B(i, nPrev)")
    else do
      let next ← vectorAt row nPrev.toNat "B(i, nPrev)"
      if nPrev = next then do
        let ret ← s.pick (nBeginCoinValues + i) ret
        traceBack s nBeginCoinValues B i next ret
      else traceBack s nBeginCoinValues B i next ret

/-- The small coins behind the last bundle. -/
def leftOver (s : Bundles) : List CostCoin :=
  match s.vZeroValueBundles.getLast? with
  | none => []
  | some back => s.vValue.drop back

end Bundles

/-- Small coins are added until the target is met. -/
def addSmall (nTargetValue : ℤ) : List CostCoin → List COutput × ℤ → List COutput × ℤ
  | [], ret => ret
  | small :: rest, ret =>
    if ret.2 < nTargetValue then addSmall nTargetValue rest (takeCoins [small.coin] small.value ret)
    else ret

/-- The dynamic programming; a loop with an `unsigned int` does not end if there are too many rows
or columns. -/
def Bundles.solve (nTargetValue denom : ℤ) (s : Bundles) (nBeginCoinValues : ℕ) (nTotalValue : ℤ)
    (ret : List COutput × ℤ) : Except Stop Selected :=
  let nAppend : ℤ := if (nTargetValue - ret.2).tmod denom ≠ 0 then 0 else 1
  let size1 := s.nTotalCoinValues - nBeginCoinValues + 1
  let size2 := nTotalValue - (nTargetValue - ret.2).tdiv denom + nAppend
  if size2 < 0 then .error (.exception "matrix<uint64_t> M")
  else if size1 ≥ 2 ^ 32 ∨ size2 ≥ 2 ^ 32 then .error (.crash "j < M.size2()")
  else do
    let m ← (List.range (size1 - 1)).foldlM (s.nextRow denom nBeginCoinValues)
      (replicate size2.toNat 0, [])
    let ret ← s.traceBack nBeginCoinValues m.2 (size1 - 1) (size2 - 1) ret
    let ret := if ret.2 < nTargetValue ∧ s.vZeroValueBundles ≠ [] then
      addSmall nTargetValue s.leftOver ret else ret
    .ok ⟨true, ret.1, ret.2⟩

/-- The greatest common divisor of the values and the target, and the sum of the values. -/
def gcdAndTotal (nTargetValue : ℤ) (first : CostCoin) (rest : List CostCoin) : ℤ × ℤ :=
  let s := rest.foldl (fun s e => (int64Gcd e.value s.1, s.2 + e.value)) (first.value, first.value)
  (int64Gcd nTargetValue s.1, s.2)

/-- The unit: `nGCD`, or an approximation. -/
def unit64 (n : ℕ) (nTotalValue nTargetValue nGCD : ℤ) : ℤ :=
  let approx := (wrap64 (n * (nTotalValue - nTargetValue))).tdiv 25
  if approx > nGCD then approx else nGCD

/-- The approximation. -/
def solveBundled64 (nTargetValue denom : ℤ) (vValue : List CostCoin) : Except Stop Selected := do
  let s ← bundleCoins denom vValue
  let nTotalValue ← s.normalized denom
  if nTargetValue.tdiv denom ≥ nTotalValue then do
    let (nBeginCoinValues, nTotalValue, ret) ←
      s.prepick nTargetValue denom s.nTotalCoinValues 0 nTotalValue ([], 0)
    if ret.2 ≥ nTargetValue then .ok ⟨true, ret.1, ret.2⟩
    else s.solve nTargetValue denom nBeginCoinValues nTotalValue ret
  else s.solve nTargetValue denom 0 nTotalValue ([], 0)

/-- The rest of `SelectCoinsMinConfByCoinAge`, when the smaller coins are worth the target. -/
def solveByAge (nTargetValue : ℤ) (vValue : List CostCoin) : Except Stop Selected := do
  let first ← vectorAt vValue 0 "vValue[0]"
  if vValue.length ≥ 2 ^ 32 then .error (.crash "i < vValue.size()")
  else
    let (nGCD, nTotalValue) := gcdAndTotal nTargetValue first vValue.tail
    let denom := unit64 vValue.length nTotalValue nTargetValue nGCD
    if nTotalValue = nTargetValue then
      .ok ⟨true, (vValue.map CostCoin.coin).foldl insertCoin [], nTotalValue⟩
    else if denom = 0 then .error (.crash "/ denom")
    else if denom ≠ nGCD then solveBundled64 nTargetValue denom vValue
    else
      Bundles.solve nTargetValue denom ⟨vValue, vValue.length, [], vValue.length⟩ 0
        (nTotalValue.tdiv denom) ([], 0)

/-- `SelectCoinsMinConfByCoinAge`. -/
def selectByAge64 (V : CoinView) (order : CostOrder V) (nTargetValue : ℤ) (nSpendTime : ℕ)
    (nConfMine nConfTheirs : ℤ) (vCoins : List COutput) : Except Stop Selected :=
  let c := collectByAge64 V nTargetValue nSpendTime nConfMine nConfTheirs (order.sort vCoins)
    ⟨none, [], 0⟩
  if c.nTotalLower < nTargetValue then
    match c.coinLowestLarger with
    | none => .ok .clear
    | some out => .ok (.insertAll [out] .clear)
  else solveByAge nTargetValue (c.vValue.map V.costCoin)

theorem vectorAt_eq {β : Type*} {v : List β} {i : ℕ} {x : β} (h : v[i]? = some x) (what : String) :
    vectorAt v i what = .ok x := by
  rw [vectorAt, h]

theorem int64Gcd_eq {n m : ℤ} (hn : 0 ≤ n) (hm : 0 ≤ m) : int64Gcd n m = Int.gcd n m := by
  induction n, m using int64Gcd.induct with
  | case1 n =>
    rw [int64Gcd, if_pos rfl, gcd_zero_right, natCast_natAbs, abs_of_nonneg hn]
  | case2 n m hne ih =>
    rw [int64Gcd, if_neg hne, ih hm (tmod_nonneg m hn), tmod_eq_emod_of_nonneg hn,
      gcd_comm, gcd_emod]

section

variable {V : CoinView} {coins : List COutput} {ret : List COutput × ℤ}

theorem foldl_insert_eq (ret : Selected) :
    (coins.foldl Selected.insert ret).setCoinsRet = coins.foldl insertCoin ret.setCoinsRet ∧
      (coins.foldl Selected.insert ret).nValueRet = ret.nValueRet + totalValue coins := by
  induction coins generalizing ret with
  | nil => exact ⟨rfl, (add_zero _).symm⟩
  | cons out coins ih =>
    obtain ⟨hset, hvalue⟩ := ih (ret.insert out)
    rw [foldl_cons, foldl_cons, hset, hvalue, totalValue_cons, ← add_assoc]
    exact ⟨rfl, rfl⟩

theorem insertAll_eq : Selected.insertAll coins .clear
    = ⟨true, coins.foldl insertCoin [], totalValue coins⟩ := by
  obtain ⟨hset, hvalue⟩ := @foldl_insert_eq coins .clear
  rw [Selected.insertAll, hset, hvalue]
  exact congrArg _ (zero_add _)

/-! ### The bundles -/

/-- The coins of an item, if all indices are in range. -/
inductive Bundles.HoldsAt (s : Bundles) (i : ℕ) : List COutput → Prop
  | single (out : COutput) (hlt : i < s.nBeginBundles)
      (hout : (s.vValue.map CostCoin.coin)[i]? = some out) : s.HoldsAt i [out]
  | bundle (it last : ℕ) (hle : s.nBeginBundles ≤ i)
      (hit : s.vZeroValueBundles[i - s.nBeginBundles]? = some it)
      (hlast : s.vZeroValueBundles[i - s.nBeginBundles + 1]? = some last)
      (hrange : it ≤ last ∧ last ≤ s.vValue.length) :
      s.HoldsAt i (((s.vValue.map CostCoin.coin).take last).drop it)

variable {i : ℕ}

theorem Bundles.HoldsAt.coinsAt {s : Bundles} (h : s.HoldsAt i coins) :
    s.coinsAt i = .ok coins := by
  rw [Bundles.coinsAt]
  cases h with
  | single out hlt hout =>
    rw [getElem?_map, Option.map_eq_some_iff] at hout
    obtain ⟨e, he, rfl⟩ := hout
    rw [if_neg (Nat.not_le.2 hlt), vectorAt_eq he]
    rfl
  | bundle it last hle hit hlast hrange =>
    rw [if_pos hle, vectorAt_eq hit, vectorAt_eq hlast]
    dsimp only [bind, Except.bind]
    rw [if_pos hrange, map_drop, map_take]

/-- The vector and its bundles hold these items. -/
structure Bundles.Laid (s : Bundles) (items : List Item) : Prop where
  length : s.nTotalCoinValues = items.length
  first : ∀ (i : ℕ) (item : Item), items[i]? = some item →
    ∃ e : CostCoin, s.vValue[i]? = some e ∧ e.value = item.value ∧ e.cost = item.cost
  coins : ∀ (i : ℕ) (item : Item), items[i]? = some item → s.HoldsAt i item.coins

/-- While the small coins are bundled: the last bundle ends at a place behind all items, where the
coins of the next one begin. -/
structure Bundling (V : CoinView) (items : List Item) (pending small : List COutput)
    (itZeroValue : ℕ) (s : Bundles) : Prop where
  laid : s.Laid items
  begins : s.nBeginBundles + s.vZeroValueBundles.length = items.length + 1
  behind : s.nBeginBundles ≤ items.length
  ends : ∃ back, s.vZeroValueBundles.getLast? = some back ∧ items.length ≤ back ∧
    itZeroValue = back + pending.length ∧
    s.vValue.drop back = (pending ++ small).map V.costCoin

variable {pending small : List COutput} {items : List Item} {itZeroValue : ℕ} {s : Bundles}
  {denom : ℤ} {out : COutput}

theorem map_coin_set {vValue : List CostCoin} {e : CostCoin} (h : vValue[i]? = some e)
    (value : ℤ) (cost : ℕ) :
    (vValue.set i { e with value := value, cost := cost }).map CostCoin.coin
      = vValue.map CostCoin.coin := by
  refine ext_getElem? fun j => ?_
  rw [getElem?_map, getElem?_map, getElem?_set]
  split_ifs with heq hlt
  · rw [← heq, h]
    rfl
  · rw [getElem?_eq_none (by omega)]
  · rfl

/-- One more bundle: what is overwritten lies behind the items. -/
theorem Bundles.Laid.close (h : s.Laid items) (item : Item) (last : ℕ) {e : CostCoin} {it : ℕ}
    (hat : s.vValue[s.nTotalCoinValues]? = some e)
    (hbegins : s.nBeginBundles + s.vZeroValueBundles.length = items.length + 1)
    (hbehind : s.nBeginBundles ≤ items.length) (hback : s.vZeroValueBundles.getLast? = some it)
    (hrange : it ≤ last ∧ last ≤ s.vValue.length)
    (hcoins : ((s.vValue.map CostCoin.coin).take last).drop it = item.coins) :
    (s.close e (item.value, item.cost) last).Laid (items ++ [item]) := by
  unfold Bundles.close
  obtain ⟨hlt, -⟩ := List.getElem?_eq_some_iff.1 hat
  have hcoin := map_coin_set hat item.value item.cost
  have hsplit : ∀ i item', (items ++ [item])[i]? = some item' →
      items[i]? = some item' ∧ i < items.length ∨ i = items.length ∧ item' = item := by
    intro i item' hitem
    obtain hi | hi := Nat.lt_or_ge i items.length
    · rw [getElem?_append_left hi] at hitem
      exact .inl ⟨hitem, hi⟩
    · obtain ⟨hlength, -⟩ := List.getElem?_eq_some_iff.1 hitem
      rw [length_append, length_singleton] at hlength
      obtain rfl : i = items.length := by omega
      rw [getElem?_append_right le_rfl, Nat.sub_self] at hitem
      exact .inr ⟨rfl, (Option.some.inj hitem).symm⟩
  refine ⟨?_, fun i item' hitem => ?_, fun i item' hitem => ?_⟩
  · rw [length_append, length_singleton]
    exact congrArg (· + 1) h.length
  · obtain ⟨hitem, hi⟩ | ⟨rfl, rfl⟩ := hsplit i item' hitem
    · obtain ⟨e', he', hvalue⟩ := h.first i item' hitem
      refine ⟨e', ?_, hvalue⟩
      rw [getElem?_set_ne (by rw [h.length]; exact hi.ne'), he']
    · refine ⟨{ e with value := item'.value, cost := item'.cost }, ?_, rfl, rfl⟩
      rw [← h.length, getElem?_set_self hlt]
  · obtain ⟨hitem, hi⟩ | ⟨rfl, rfl⟩ := hsplit i item' hitem
    · have hold := h.coins i item' hitem
      generalize item'.coins = coins at hold ⊢
      cases hold with
      | single out hlt' hout => exact .single out hlt' (hcoin.symm ▸ hout)
      | bundle it' last' hle hit hlast hrange' =>
        rw [← hcoin]
        refine .bundle it' last' hle ?_ ?_ (by rw [length_set]; exact hrange')
        · rw [List.getElem?_append_left (List.getElem?_eq_some_iff.1 hit).1, hit]
        · rw [List.getElem?_append_left (List.getElem?_eq_some_iff.1 hlast).1, hlast]
    · rw [← hcoins, ← hcoin]
      rw [getLast?_eq_getElem?] at hback
      have hindex : items.length - s.nBeginBundles = s.vZeroValueBundles.length - 1 := by omega
      refine .bundle it last hbehind ?_ ?_ (by rw [length_set]; exact hrange)
      · dsimp only
        rw [hindex, getElem?_append_left (by omega), hback]
      · dsimp only
        rw [hindex, getElem?_append_right (by omega)]
        have hzero : s.vZeroValueBundles.length - 1 + 1 - s.vZeroValueBundles.length = 0 := by omega
        rw [hzero]
        rfl

section

variable {pBundle : Item}

theorem Bundling.next (h : Bundling V items pBundle.coins (out :: small) itZeroValue s) :
    s.vValue[itZeroValue]? = some (V.costCoin out) ∧
      s.vValue.drop (itZeroValue + 1) = small.map V.costCoin := by
  obtain ⟨back, -, -, rfl, hdrop⟩ := h.ends
  constructor
  · rw [← getElem?_drop, hdrop, map_append, ← length_map V.costCoin,
      getElem?_append_right le_rfl, Nat.sub_self]
    rfl
  · rw [Nat.add_assoc, ← drop_drop, hdrop, ← map_drop, drop_append,
      drop_of_length_le (by omega), Nat.add_sub_cancel_left]
    rfl

theorem Bundling.push (h : Bundling V items pBundle.coins (out :: small) itZeroValue s)
    (value : ℤ) (cost : ℕ) :
    Bundling V items (Item.mk value cost (pBundle.coins ++ [out])).coins small (itZeroValue + 1)
      s := by
  obtain ⟨back, hback, hitems, rfl, hdrop⟩ := h.ends
  refine ⟨h.laid, h.begins, h.behind, back, hback, hitems, ?_, ?_⟩
  · rw [length_append, length_singleton, Nat.add_assoc]
  · rw [hdrop, append_cons]

/-- The bundle is complete. -/
theorem Bundling.close (h : Bundling V items pBundle.coins small itZeroValue s) {e : CostCoin}
    (hne : pBundle.coins ≠ []) (hat : s.vValue[s.nTotalCoinValues]? = some e) :
    Bundling V (items ++ [pBundle]) (Item.mk 0 0 []).coins small itZeroValue
      (s.close e (pBundle.value, pBundle.cost) itZeroValue) := by
  obtain ⟨back, hback, hitems, rfl, hdrop⟩ := h.ends
  have hpos := length_pos_iff.2 hne
  have hlength : back + pBundle.coins.length ≤ s.vValue.length := by
    have hdropped := congrArg List.length hdrop
    rw [length_drop, length_map, length_append] at hdropped
    omega
  have hcoins : ((s.vValue.map CostCoin.coin).take (back + pBundle.coins.length)).drop back
      = pBundle.coins := by
    have hmap : (s.vValue.map CostCoin.coin).drop back = pBundle.coins ++ small := by
      rw [← map_drop, hdrop, map_map]
      exact map_id _
    rw [drop_take, hmap, Nat.add_sub_cancel_left]
    exact take_left' rfl
  have hlaid := h.laid.close pBundle (back + pBundle.coins.length) hat h.begins h.behind hback
    ⟨Nat.le_add_right _ _, hlength⟩ hcoins
  refine ⟨hlaid, ?_, ?_, back + pBundle.coins.length, getLast?_concat, ?_, rfl, ?_⟩
  · have hbegins := h.begins
    rw [Bundles.close]
    dsimp only
    rw [length_append, length_append, length_singleton, length_singleton]
    omega
  · rw [length_append]
    exact h.behind.trans (Nat.le_add_right _ _)
  · rw [length_append, length_singleton]
    omega
  · rw [Bundles.close]
    rw [drop_set_of_lt (by rw [h.laid.length]; omega), ← drop_drop, hdrop,
      map_append, ← length_map V.costCoin]
    exact drop_left' rfl

/-- **The loop over the small coins** makes the same bundles as the recursion over them. -/
theorem bundleLoop_spec  (h : Bundling V items pBundle.coins small itZeroValue s) :
    ∃ s', bundleLoop denom small.length itZeroValue (pBundle.value, pBundle.cost) s = .ok s' ∧
      s'.Laid (items ++ (bundle V denom pBundle small).1) ∧
      s'.leftOver = (bundle V denom pBundle small).2.map V.costCoin ∧
      s'.vZeroValueBundles ≠ [] := by
  induction small generalizing items pBundle itZeroValue s with
  | nil =>
    obtain ⟨back, hback, -, -, hdrop⟩ := h.ends
    refine ⟨s, rfl, ?_, ?_, fun hnil => ?_⟩
    · rw [bundle, append_nil]
      exact h.laid
    · rw [Bundles.leftOver, hback, bundle]
      dsimp only
      rw [hdrop, append_nil]
    · rw [hnil] at hback
      cases hback
  | cons out small ih =>
    obtain ⟨hat, -⟩ := h.next
    obtain ⟨back, -, hitems, hit, -⟩ := h.ends
    rw [length_cons, bundleLoop, vectorAt_eq hat, bundle]
    dsimp only [bind, Except.bind, CoinView.costCoin]
    have hpush := h.push (pBundle.value + out.nValue) (pBundle.cost + V.coinWeightCost out.tx out.i)
    split_ifs with hclose
    · have hfirst : s.nTotalCoinValues < s.vValue.length := by
        have hlt := (List.getElem?_eq_some_iff.1 hat).1
        rw [h.laid.length]
        omega
      have hentry := getElem?_eq_getElem hfirst
      rw [vectorAt_eq hentry]
      obtain ⟨s', hrun, hlaid, hrest, hne⟩ :=
        ih (hpush.close (append_ne_nil_of_right_ne_nil _ (cons_ne_nil _ _)) hentry)
      refine ⟨s', hrun, ?_, hrest, hne⟩
      rw [append_assoc] at hlaid
      exact hlaid
    · exact ih hpush

end

/-- Single coins are items of their own. -/
theorem Bundles.laid_singles (front : List COutput) (tail : List CostCoin) (b : List ℕ) :
    Bundles.Laid ⟨front.map V.costCoin ++ tail, front.length, b, front.length⟩
      (front.map V.single) := by
  have hitems : ∀ (i : ℕ) (item : Item), (front.map V.single)[i]? = some item →
      ∃ out, front[i]? = some out ∧ i < front.length ∧ V.single out = item := by
    intro i item hitem
    rw [getElem?_map, Option.map_eq_some_iff] at hitem
    obtain ⟨out, hout, hsingle⟩ := hitem
    exact ⟨out, hout, (List.getElem?_eq_some_iff.1 hout).1, hsingle⟩
  have hat : ∀ (i : ℕ) (out : COutput), front[i]? = some out →
      (front.map V.costCoin ++ tail)[i]? = some (V.costCoin out) := by
    intro i out hout
    have hlt := (List.getElem?_eq_some_iff.1 hout).1
    rw [getElem?_append_left (by rwa [length_map]), getElem?_map, hout]
    rfl
  refine ⟨(length_map _).symm, fun i item hitem => ?_, fun i item hitem => ?_⟩
  · obtain ⟨out, hout, -, rfl⟩ := hitems i item hitem
    exact ⟨V.costCoin out, hat i out hout, rfl, rfl⟩
  · obtain ⟨out, hout, hlt, rfl⟩ := hitems i item hitem
    refine .single out hlt ?_
    rw [getElem?_map, hat i out hout]
    rfl

/-- The items of `solveBundled`. -/
def CoinView.bundled (V : CoinView) (denom : ℤ) (vValue : List COutput) : List Item :=
  (vValue.filter fun out => decide (out.nValue ≥ denom)).map V.single ++
    (bundle V denom ⟨0, 0, []⟩ (vValue.filter fun out => !decide (out.nValue ≥ denom))).1

/-- The coins that are left over. -/
def CoinView.unbundled (V : CoinView) (denom : ℤ) (vValue : List COutput) : List COutput :=
  (bundle V denom ⟨0, 0, []⟩ (vValue.filter fun out => !decide (out.nValue ≥ denom))).2

theorem bundleCoins_spec (V : CoinView) (denom : ℤ) (vValue : List COutput) :
    ∃ s, bundleCoins denom (vValue.map V.costCoin) = .ok s ∧ s.Laid (V.bundled denom vValue) ∧
      s.leftOver = (V.unbundled denom vValue).map V.costCoin ∧ s.vZeroValueBundles ≠ [] := by
  have hlarge : vValue.filter ((fun e => decide (e.value ≥ denom)) ∘ V.costCoin)
      = vValue.filter fun out => decide (out.nValue ≥ denom) := rfl
  have hsmall : vValue.filter ((fun e => !decide (e.value ≥ denom)) ∘ V.costCoin)
      = vValue.filter fun out => !decide (out.nValue ≥ denom) := rfl
  rw [bundleCoins, filter_map, filter_map, hlarge, hsmall, length_map, length_map]
  rw [CoinView.bundled, CoinView.unbundled]
  generalize (vValue.filter fun out => decide (out.nValue ≥ denom)) = large
  generalize (vValue.filter fun out => !decide (out.nValue ≥ denom)) = small
  refine @bundleLoop_spec V small (large.map V.single) large.length _ denom ⟨0, 0, []⟩
    ⟨Bundles.laid_singles large _ _, ?_, ?_, large.length, rfl, ?_, rfl, ?_⟩
  · rw [length_map]
    rfl
  · rw [length_map]
  · rw [length_map]
  · exact drop_left' (length_map _)

/-! ### Picking -/

/-- The set that a list of coins is inserted into. -/
def asSet (r : List COutput × ℤ) : List COutput × ℤ := (r.1.foldl insertCoin [], r.2)

theorem takeCoins_asSet (coins : List COutput) (value : ℤ) (r : List COutput × ℤ) :
    takeCoins coins value (asSet r) = asSet (r.1 ++ coins, r.2 + value) := by
  rw [takeCoins, asSet, asSet, foldl_append]

theorem Bundles.Laid.pick (h : s.Laid items) {item : Item} (hitem : items[i]? = some item)
    (r : List COutput × ℤ) :
    s.pick i (asSet r) = .ok (asSet (r.1 ++ item.coins, r.2 + item.value)) := by
  obtain ⟨e, he, hvalue, -⟩ := h.first i item hitem
  rw [Bundles.pick, (h.coins i item hitem).coinsAt, vectorAt_eq he]
  dsimp only [bind, Except.bind]
  rw [takeCoins_asSet, hvalue]

theorem Bundles.Laid.normalized (h : s.Laid items) (denom : ℤ) :
    s.normalized denom = .ok (items.map fun item => item.value.tdiv denom).sum := by
  have hloop : ∀ n ≤ items.length, (List.range n).foldlM (fun nTotalValue i => do
      let item ← vectorAt s.vValue i "vValue[i].first"
      .ok (nTotalValue + item.value.tdiv denom)) 0
        = (.ok ((items.take n).map fun item => item.value.tdiv denom).sum : Except Stop ℤ) := by
    intro n hn
    induction n with
    | zero => rfl
    | succ n ih =>
      have hitem : items[n]? = some items[n] := getElem?_eq_getElem hn
      obtain ⟨e, he, hvalue, -⟩ := h.first n _ hitem
      rw [range_succ, foldlM_append, ih (by omega), take_add_one, hitem]
      dsimp only [bind, Except.bind]
      rw [foldlM_cons, vectorAt_eq he]
      dsimp only [bind, Except.bind]
      rw [hvalue, map_append, sum_append]
      exact congrArg (Except.ok <| _ + ·) (add_zero _).symm
  rw [Bundles.normalized, h.length, hloop _ le_rfl, take_length]

/-- The loop that picks the first items. -/
theorem Bundles.Laid.prepick (h : s.Laid items) (nTargetValue denom nTotalValue : ℤ)
    (left nBeginCoinValues : ℕ) (hleft : nBeginCoinValues + left = items.length)
    (r : List COutput × ℤ) :
    ∃ n ≤ items.length,
      (Espers.prepick nTargetValue denom (items.drop nBeginCoinValues) nTotalValue r).1
        = items.drop n ∧
      s.prepick nTargetValue denom left nBeginCoinValues nTotalValue (asSet r) = .ok (n,
        (Espers.prepick nTargetValue denom (items.drop nBeginCoinValues) nTotalValue r).2.1, asSet
        (Espers.prepick nTargetValue denom (items.drop nBeginCoinValues) nTotalValue r).2.2) := by
  induction left generalizing nBeginCoinValues nTotalValue r with
  | zero =>
    have hdrop : items.drop nBeginCoinValues = [] := drop_of_length_le hleft.ge
    rw [hdrop]
    exact ⟨nBeginCoinValues, hleft.le, hdrop.symm, rfl⟩
  | succ left ih =>
    have hlt : nBeginCoinValues < items.length := by omega
    have hitem : items[nBeginCoinValues]? = some items[nBeginCoinValues] :=
      getElem?_eq_getElem hlt
    obtain ⟨e, he, hvalue, -⟩ := h.first _ _ hitem
    rw [drop_eq_getElem_cons hlt, Bundles.prepick, Espers.prepick]
    by_cases hmore : (nTargetValue - r.2).tdiv denom ≥ nTotalValue
    · have hmore' : (nTargetValue - (asSet r).2).tdiv denom ≥ nTotalValue := hmore
      rw [if_pos hmore, if_pos hmore', vectorAt_eq he]
      dsimp only [bind, Except.bind]
      rw [h.pick hitem, hvalue]
      exact ih _ _ (by omega) _
    · have hmore' : ¬ (nTargetValue - (asSet r).2).tdiv denom ≥ nTotalValue := hmore
      rw [if_neg hmore, if_neg hmore']
      exact ⟨nBeginCoinValues, hlt.le, (drop_eq_getElem_cons hlt).symm, rfl⟩

/-! ### The matrix -/

theorem mapM_ok {β γ : Type} {f : β → Except Stop γ} {g : β → γ} {l : List β}
    (h : ∀ x ∈ l, f x = .ok (g x)) : l.mapM f = .ok (l.map g) := by
  induction l with
  | nil => rfl
  | cons x l ih =>
    rw [mapM_cons, h x mem_cons_self, ih fun y hy => h y (mem_cons_of_mem _ hy)]
    rfl

theorem vectorAt_range {β : Type*} {n j : ℕ} (hj : j < n) (f : ℕ → β) (what : String) :
    vectorAt ((List.range n).map f) j what = .ok (f j) := by
  refine vectorAt_eq ?_ what
  rw [getElem?_map, getElem?_range hj]
  rfl

/-- The rows of the recursion. -/
def mRow (denom : ℤ) (columns : ℕ) (items : List Item) : List ℕ :=
  (List.range columns).map (leftCost denom items)

def bRow (denom : ℤ) (columns : ℕ) (item : Item) (items : List Item) : List ℕ :=
  (List.range columns).map (before denom item items)

/-- Every index of a row is in range. -/
theorem fillRow_eq (denom : ℤ) (columns : ℕ) (item : Item) (items : List Item) :
    ∃ row, fillRow (item.weight denom) (item.cost % 2 ^ 64) (mRow denom columns items) = .ok row ∧
      row.map Prod.fst = mRow denom columns (item :: items) ∧
      row.map Prod.snd = bRow denom columns item items := by
  refine ⟨(List.range columns).map fun j =>
    (leftCost denom (item :: items) j, before denom item items j), ?_, ?_, ?_⟩
  · rw [fillRow, mRow, length_map, length_range]
    refine mapM_ok fun j hj => ?_
    have hj := mem_range.1 hj
    rw [vectorAt_range hj, leftCost, before]
    dsimp only [bind, Except.bind]
    by_cases hweight : item.weight denom ≤ j
    · rw [if_pos hweight, vectorAt_range (by omega), if_pos hweight]
      dsimp only
      rw [Nat.add_mod_mod]
      split_ifs with hkept hless hless
      · exact absurd hless.2 (Nat.not_lt.2 hkept)
      · rw [max_eq_left hkept]
      · rw [max_eq_right (Nat.not_le.1 hkept).le]
      · exact absurd ⟨hweight, Nat.not_le.1 hkept⟩ hless
    · rw [if_neg hweight, if_neg hweight, if_neg fun h => hweight h.1]
  · rw [map_map]
    rfl
  · rw [map_map]
    rfl

/-- The values fit the code's integers. -/
def Item.Fits (item : Item) : Prop := 0 ≤ item.value ∧ item.value < 2 ^ 63

theorem Item.Fits.weight {item : Item} (h : item.Fits) (hdenom : 0 < denom) :
    ((item.value.tdiv denom) % 2 ^ 64).toNat = item.weight denom := by
  have hle : item.value.tdiv denom ≤ item.value := by
    rw [tdiv_eq_ediv_of_nonneg h.1]
    exact ediv_le_self _ h.1
  have hnonneg : 0 ≤ item.value.tdiv denom := Int.tdiv_nonneg h.1 hdenom.le
  have hlt := h.2
  rw [emod_eq_of_lt hnonneg (by omega), Item.weight]

theorem exists_item {n : ℕ} (h : n + i < items.length) :
    ∃ item, items[n + i]? = some item ∧ (items.drop n)[i]? = some item :=
  ⟨_, getElem?_eq_getElem h, getElem?_drop.trans (getElem?_eq_getElem h)⟩

/-- The matrices after so many rows. -/
theorem Bundles.Laid.fill (h : s.Laid items) (hdenom : 0 < denom)
    (hfits : ∀ item ∈ items, item.Fits) {nBeginCoinValues : ℕ} (columns : ℕ)
    (hi : nBeginCoinValues + i ≤ items.length) :
    ∃ B, (List.range i).foldlM (s.nextRow denom nBeginCoinValues) (replicate columns 0, [])
        = .ok (mRow denom columns ((items.drop nBeginCoinValues).take i).reverse, B) ∧
      B.length = i ∧ ∀ (k : ℕ) (item : Item), k < i →
        (items.drop nBeginCoinValues)[k]? = some item → B[k]? = some
          (bRow denom columns item ((items.drop nBeginCoinValues).take k).reverse) := by
  induction i with
  | zero =>
    refine ⟨[], ?_, rfl, fun k item hk => absurd hk (Nat.not_lt_zero k)⟩
    have hrow : mRow denom columns [] = replicate columns 0 :=
      map_const'.trans (by rw [length_range])
    rw [take_zero, reverse_nil, hrow]
    rfl
  | succ i ih =>
    obtain ⟨B, hrun, hlength, hB⟩ := ih (by omega)
    obtain ⟨item, hat, hdrop⟩ := exists_item (show nBeginCoinValues + i < items.length by omega)
    obtain ⟨e, he, hvalue, hcost⟩ := h.first _ _ hat
    have hitem := (hfits item (mem_of_getElem? hat)).weight hdenom
    obtain ⟨row, hrow, hfst, hsnd⟩ := fillRow_eq denom columns item
      ((items.drop nBeginCoinValues).take i).reverse
    refine ⟨B ++ [row.map Prod.snd], ?_, ?_, fun k item' hk hat' => ?_⟩
    · rw [range_succ, foldlM_append, hrun]
      dsimp only [bind, Except.bind]
      rw [foldlM_cons, nextRow, vectorAt_eq he]
      dsimp only [bind, Except.bind]
      rw [hvalue, hitem, hcost, hrow]
      dsimp only
      rw [take_add_one, hdrop, Option.toList_some, reverse_append, hfst]
      rfl
    · rw [length_append, hlength]
      rfl
    · obtain hk | rfl := Nat.lt_succ_iff_lt_or_eq.1 hk
      · rw [getElem?_append_left (hlength.symm ▸ hk)]
        exact hB k item' hk hat'
      · obtain rfl := Option.some.inj (hdrop.symm.trans hat')
        rw [← hlength, getElem?_concat_length, hlength, hsnd]

theorem before_le (item : Item) (items : List Item) (j : ℕ) : before denom item items j ≤ j := by
  rw [before]
  split_ifs
  · exact Nat.sub_le _ _
  · exact le_rfl

theorem Bundles.Laid.traceBack (h : s.Laid items) {nBeginCoinValues columns : ℕ}
    {B : List (List ℕ)} {rows : ℕ} (hB : ∀ (k : ℕ) (item : Item), k < rows →
      (items.drop nBeginCoinValues)[k]? = some item →
        B[k]? = some (bRow denom columns item ((items.drop nBeginCoinValues).take k).reverse))
    (nPrev : ℕ) (hrows : i ≤ rows) (hi : nBeginCoinValues + i ≤ items.length)
    (hcolumns : i = 0 ∨ nPrev < columns) (r : List COutput × ℤ) :
    s.traceBack nBeginCoinValues B i nPrev (asSet r) = .ok (asSet
      (Espers.traceBack denom ((items.drop nBeginCoinValues).take i).reverse nPrev r)) := by
  induction i generalizing nPrev r with
  | zero => rfl
  | succ i ih =>
    have hcolumns := hcolumns.resolve_left (Nat.succ_ne_zero i)
    obtain ⟨item, hat, hdrop⟩ := exists_item (show nBeginCoinValues + i < items.length by omega)
    have hle := @before_le denom item ((items.drop nBeginCoinValues).take i).reverse nPrev
    rw [Bundles.traceBack, vectorAt_eq (hB i item hrows hdrop), take_add_one, hdrop,
      Option.toList_some, reverse_append, reverse_singleton, singleton_append,
      Espers.traceBack]
    dsimp only [bind, Except.bind]
    rw [if_neg (not_lt.2 (natCast_nonneg nPrev)), bRow, toNat_natCast, vectorAt_range hcolumns]
    dsimp only
    by_cases hpick : nPrev = before denom item ((items.drop nBeginCoinValues).take i).reverse nPrev
    · rw [if_pos hpick, if_pos (congrArg Nat.cast hpick), h.pick hat]
      exact ih _ (by omega) (by omega) (.inr (hle.trans_lt hcolumns)) _
    · rw [if_neg hpick, if_neg fun heq => hpick (natCast_inj.1 heq)]
      exact ih _ (by omega) (by omega) (.inr (hle.trans_lt hcolumns)) _

theorem addSmall_eq {nTargetValue : ℤ} (rest : List COutput) (r : List COutput × ℤ) :
    addSmall nTargetValue (rest.map V.costCoin) (asSet r)
      = asSet (addLeftOver nTargetValue rest r) := by
  induction rest generalizing r with
  | nil => rfl
  | cons out rest ih =>
    rw [map_cons, addSmall, addLeftOver]
    by_cases hless : r.2 < nTargetValue
    · have hless' : (asSet r).2 < nTargetValue := hless
      rw [if_pos hless, if_pos hless', takeCoins_asSet]
      exact ih _
    · have hless' : ¬ (asSet r).2 < nTargetValue := hless
      rw [if_neg hless, if_neg hless']

variable {r : List COutput × ℤ}

theorem addLeftOver_of_le {nTargetValue : ℤ} (h : nTargetValue ≤ r.2)
    (rest : List COutput) : addLeftOver nTargetValue rest r = r := by
  cases rest with
  | nil => rfl
  | cons out rest => rw [addLeftOver, if_neg (not_lt.2 h)]

/-- The answer that a list of coins and its value stand for. -/
def selectedOf (r : List COutput × ℤ) : Selected := ⟨true, (asSet r).1, r.2⟩

/-- **The matrix and its trace agree with the recursion over the items**, and every index is in
range. -/
theorem Bundles.Laid.solve (h : s.Laid items) {rest : List COutput}
    (hrest : s.leftOver = rest.map V.costCoin) (hdenom : 0 < denom)
    (hfits : ∀ item ∈ items, item.Fits) (hrows : items.length + 1 < 2 ^ 32)
    {nBeginCoinValues size2 : ℕ} (hbegin : nBeginCoinValues ≤ items.length)
    {nTargetValue nTotalValue : ℤ}
    (hsize2 : nTotalValue - (nTargetValue - r.2).tdiv denom +
      (if (nTargetValue - r.2).tmod denom ≠ 0 then 0 else 1) = size2)
    (hpos : items.length = nBeginCoinValues ∨ 0 < size2) (hsmall : size2 < 2 ^ 32) :
    s.solve nTargetValue denom nBeginCoinValues nTotalValue (asSet r) =
      .ok (selectedOf (addLeftOver nTargetValue rest (Espers.traceBack denom
        (items.drop nBeginCoinValues).reverse (size2 - 1) r))) := by
  obtain ⟨left, hleft⟩ := Nat.exists_eq_add_of_le hbegin
  have hlength : (items.drop nBeginCoinValues).length = left := by
    rw [length_drop]
    omega
  obtain ⟨B, hfill, -, hB⟩ := h.fill hdenom hfits size2 (i := left) hleft.ge
  have htrace := h.traceBack hB (size2 - 1) le_rfl hleft.ge (by omega) r
  rw [take_of_length_le hlength.le] at htrace
  have hprev : s.traceBack nBeginCoinValues B left ((size2 : ℤ) - 1) (asSet r)
      = s.traceBack nBeginCoinValues B left ((size2 - 1 : ℕ) : ℤ) (asSet r) := by
    obtain hzero | hpos := hpos
    · obtain rfl : left = 0 := by omega
      rfl
    · rw [Nat.cast_sub hpos]
      rfl
  rw [Bundles.solve]
  have hsize2' : nTotalValue - (nTargetValue - (asSet r).2).tdiv denom +
      (if (nTargetValue - (asSet r).2).tmod denom ≠ 0 then 0 else 1) = size2 := hsize2
  have hsize1 : s.nTotalCoinValues - nBeginCoinValues + 1 = left + 1 := by
    rw [h.length]
    omega
  rw [hsize2', hsize1, if_neg (not_lt.2 (natCast_nonneg _)), if_neg (by omega),
    Nat.add_sub_cancel, toNat_natCast, hfill]
  dsimp only [bind, Except.bind]
  rw [hprev, htrace]
  generalize Espers.traceBack denom (items.drop nBeginCoinValues).reverse (size2 - 1) r = r'
  dsimp only
  split_ifs with hmore
  · rw [hrest, addSmall_eq]
    rfl
  · obtain hle | hnil := not_and_or.1 hmore
    · have hle : nTargetValue ≤ r'.2 := not_lt.1 hle
      rw [addLeftOver_of_le hle]
      rfl
    · rw [Bundles.leftOver, not_not.1 hnil] at hrest
      rw [map_eq_nil_iff.1 hrest.symm]
      rfl

end

end Espers
