import Espers.Wallet.LockedCoins
import Mathlib.Algebra.Order.BigOperators.Group.List

/-!
# Plain coin selection

`SelectCoinsMinConf` ends at a coin of exactly the target value, or sorts the coins into those below
the target and a cent and the smallest other one, and approximates a subset sum of the small ones.

* `CollectsTo.of_collectCoins64` : what the first loop leaves.
* `approximateBestSubset_best` : the best subset is worth what is said, and never less than the
  target.
* `SelectsCoins` : the contract of a selection of coins, whatever algorithm it uses.
* `selectCoinsMinConf_contract_iff` : **the contract holds exactly if** the sum of the target and a
  cent does not overflow, or no coin is eligible.
-/

namespace Espers

open List Function Int

variable {V : CoinView} {nTargetValue nBound : ℤ} {nSpendTime : ℕ} {nConfMine nConfTheirs : ℤ}
  {vCoins coins vValue : List COutput} {out : COutput}

/-! ### The set that is filled -/

/-- What a selection leaves behind: its answer, the set of coins, and their value. -/
structure Selected where
  fRet : Bool
  setCoinsRet : List COutput
  nValueRet : ℤ
  deriving DecidableEq

/-- `setCoinsRet.insert` and the addition to `nValueRet`: a pointer and an index stand for an
outpoint, which the set holds once. -/
def Selected.insert (ret : Selected) (out : COutput) : Selected where
  fRet := true
  setCoinsRet :=
    if out.prevout ∈ ret.setCoinsRet.map COutput.prevout then ret.setCoinsRet
    else ret.setCoinsRet ++ [out]
  nValueRet := ret.nValueRet + out.nValue

/-- A loop that inserts coins, and returns true. -/
def Selected.insertAll (coins : List COutput) (ret : Selected) : Selected :=
  { coins.foldl Selected.insert ret with fRet := true }

/-- After `setCoinsRet.clear()`. -/
def Selected.clear : Selected := ⟨false, [], 0⟩

/-! ### The algorithm -/

/-- The first loop of `SelectCoinsMinConf`, with `nTargetValue + CENT` as an `int64_t`. -/
def collectCoins64 (V : CoinView) (nTargetValue : ℤ) (nSpendTime : ℕ) (nConfMine nConfTheirs : ℤ) :
    List COutput → Collected → COutput ⊕ Collected
  | [], c => .inr c
  | out :: vCoins, c =>
    if !V.eligible nSpendTime nConfMine nConfTheirs out then
      collectCoins64 V nTargetValue nSpendTime nConfMine nConfTheirs vCoins c
    else if out.nValue = nTargetValue then .inl out
    else if out.nValue < add64 nTargetValue cent then
      collectCoins64 V nTargetValue nSpendTime nConfMine nConfTheirs vCoins
        { c with vValue := c.vValue ++ [out], nTotalLower := c.nTotalLower + out.nValue }
    else if out.nValue < (c.coinLowestLarger.map COutput.nValue).getD int64Max then
      collectCoins64 V nTargetValue nSpendTime nConfMine nConfTheirs vCoins
        { c with coinLowestLarger := some out }
    else collectCoins64 V nTargetValue nSpendTime nConfMine nConfTheirs vCoins c

/-- `SelectCoinsMinConf`; each of the two subset searches has its own draws.  Only the target and a
cent are added in 64 bits: every other sum is at most the value of all coins. -/
def selectCoinsMinConf64 (V : CoinView) (D D' : Draws) (nTargetValue : ℤ) (nSpendTime : ℕ)
    (nConfMine nConfTheirs : ℤ) (vCoins : List COutput) : Selected :=
  match collectCoins64 V nTargetValue nSpendTime nConfMine nConfTheirs (D.shuffle vCoins)
    ⟨none, [], 0⟩ with
  | .inl out => .insertAll [out] .clear
  | .inr c =>
    if c.nTotalLower = nTargetValue then .insertAll c.vValue .clear
    else if c.nTotalLower < nTargetValue then
      match c.coinLowestLarger with
      | none => .clear
      | some out => .insertAll [out] .clear
    else
      -- the largest value comes first
      let vValue := c.vValue.mergeSort fun a b => decide (a.nValue ≥ b.nValue)
      let best := approximateBestSubset D vValue c.nTotalLower nTargetValue
      let best := if best.2 ≠ nTargetValue ∧ c.nTotalLower ≥ add64 nTargetValue cent then
        approximateBestSubset D' vValue c.nTotalLower (add64 nTargetValue cent) else best
      match c.coinLowestLarger with
      | none => .insertAll (flagged best.1 vValue) .clear
      | some out =>
        if (best.2 ≠ nTargetValue ∧ best.2 < add64 nTargetValue cent) ∨ out.nValue ≤ best.2 then
          .insertAll [out] .clear
        else .insertAll (flagged best.1 vValue) .clear

/-! ### The contract -/

/-- The contract of a selection: it succeeds exactly if the eligible coins are worth the target, and
then returns some of them with their value, each once; else it returns nothing. -/
structure SelectsCoins (V : CoinView) (nTargetValue : ℤ) (nSpendTime : ℕ)
    (nConfMine nConfTheirs : ℤ) (vCoins : List COutput) (ret : Selected) : Prop where
  fRet_iff : ret.fRet = true ↔
    nTargetValue ≤ totalValue (vCoins.filter (V.eligible nSpendTime nConfMine nConfTheirs))
  subset : ∀ out ∈ ret.setCoinsRet,
    out ∈ vCoins ∧ V.eligible nSpendTime nConfMine nConfTheirs out = true
  distinct : (ret.setCoinsRet.map COutput.prevout).Nodup
  exact : ret.fRet = true → ret.nValueRet = totalValue ret.setCoinsRet ∧
    nTargetValue ≤ ret.nValueRet
  empty : ret.fRet = false → ret.setCoinsRet = [] ∧ ret.nValueRet = 0

variable {coins' : List COutput}

theorem totalValue_append :
    totalValue (coins ++ coins') = totalValue coins + totalValue coins' := by
  rw [totalValue, map_append, sum_append]
  rfl

theorem totalValue_perm (h : coins.Perm coins') :
    totalValue coins = totalValue coins' := (h.map COutput.nValue).sum_eq

theorem totalValue_subperm (h : coins.Subperm coins')
    (hnonneg : ∀ out ∈ coins', 0 ≤ out.nValue) : totalValue coins ≤ totalValue coins' := by
  obtain ⟨l, hperm, hsub⟩ := h
  rw [← totalValue_perm hperm]
  refine (hsub.map COutput.nValue).sum_le_sum fun n hn => ?_
  obtain ⟨out, hout, rfl⟩ := mem_map.1 hn
  exact hnonneg out hout

theorem nodup_prevout_of_subperm (h : coins.Subperm coins')
    (hdistinct : (coins'.map COutput.prevout).Nodup) : (coins.map COutput.prevout).Nodup := by
  obtain ⟨l, hperm, hsub⟩ := h
  exact (hperm.map COutput.prevout).nodup_iff.1 (hdistinct.sublist (hsub.map COutput.prevout))

theorem foldl_insert_of_nodup (ret : Selected)
    (h : ((ret.setCoinsRet ++ coins).map COutput.prevout).Nodup) :
    (coins.foldl Selected.insert ret).setCoinsRet = ret.setCoinsRet ++ coins ∧
      (coins.foldl Selected.insert ret).nValueRet = ret.nValueRet + totalValue coins := by
  induction coins generalizing ret with
  | nil => exact ⟨(append_nil _).symm, (add_zero _).symm⟩
  | cons out coins ih =>
    have hnot : out.prevout ∉ ret.setCoinsRet.map COutput.prevout := by
      rw [map_append, map_cons] at h
      exact fun hmem => (nodup_append.1 h).2.2 _ hmem _ mem_cons_self rfl
    have hset : (ret.insert out).setCoinsRet = ret.setCoinsRet ++ [out] := if_neg hnot
    have hrest := ih (ret.insert out) (by rw [hset, append_assoc]; exact h)
    rw [foldl_cons, hrest.1, hrest.2, hset, append_assoc, totalValue_cons, ← add_assoc]
    exact ⟨rfl, rfl⟩

theorem insertAll_of_nodup (h : (coins.map COutput.prevout).Nodup) :
    Selected.insertAll coins .clear = ⟨true, coins, totalValue coins⟩ := by
  obtain ⟨hset, hvalue⟩ := foldl_insert_of_nodup .clear h
  rw [Selected.insertAll, hset, hvalue]
  exact congrArg _ (zero_add _)

theorem SelectsCoins.insertAll (hdistinct : (vCoins.map COutput.prevout).Nodup)
    (hnonneg : ∀ out ∈ vCoins, 0 ≤ out.nValue)
    (hsub : coins.Subperm (vCoins.filter (V.eligible nSpendTime nConfMine nConfTheirs)))
    (hvalue : nTargetValue ≤ totalValue coins) :
    SelectsCoins V nTargetValue nSpendTime nConfMine nConfTheirs vCoins
      (.insertAll coins .clear) := by
  have hnodup := nodup_prevout_of_subperm (hsub.trans filter_sublist.subperm) hdistinct
  have hle := totalValue_subperm hsub fun out h => hnonneg out (mem_of_mem_filter h)
  rw [insertAll_of_nodup hnodup]
  constructor
  · exact ⟨fun _ => hvalue.trans hle, fun _ => rfl⟩
  · exact fun out h => mem_filter.1 (hsub.subset h)
  · exact hnodup
  · exact fun _ => ⟨rfl, hvalue⟩
  · exact fun h => Bool.noConfusion h

theorem SelectsCoins.clear (h : totalValue
    (vCoins.filter (V.eligible nSpendTime nConfMine nConfTheirs)) < nTargetValue) :
    SelectsCoins V nTargetValue nSpendTime nConfMine nConfTheirs vCoins .clear := by
  constructor
  · exact ⟨fun h' => Bool.noConfusion h', fun h' => absurd h' (not_le.2 h)⟩
  · exact fun out h' => absurd h' not_mem_nil
  · exact nodup_nil
  · exact fun h' => Bool.noConfusion h'
  · exact fun _ => ⟨rfl, rfl⟩

/-! ### The first loop -/

/-- What the first loop of `SelectCoinsMinConf` leaves when it reaches the end: no eligible coin has
the value of the target; the eligible coins below the bound are collected; a larger one is kept
unless there is none. -/
structure Collects (p : COutput → Bool) (nTargetValue nBound : ℤ) (vCoins : List COutput)
    (c c' : Collected) : Prop where
  ne : ∀ out ∈ vCoins, p out = true → out.nValue ≠ nTargetValue
  vValue : c'.vValue = c.vValue ++ vCoins.filter fun out => p out && decide (out.nValue < nBound)
  nTotalLower : c'.nTotalLower = c.nTotalLower +
    totalValue (vCoins.filter fun out => p out && decide (out.nValue < nBound))
  larger : ∀ out, c'.coinLowestLarger = some out → c.coinLowestLarger = some out ∨
    out ∈ vCoins ∧ p out = true ∧ nBound ≤ out.nValue
  none : c'.coinLowestLarger = .none → c.coinLowestLarger = .none ∧
    ∀ out ∈ vCoins, p out = true → nBound ≤ out.nValue → int64Max ≤ out.nValue

variable {p : COutput → Bool}

theorem Collects.nil {c : Collected} : Collects p nTargetValue nBound [] c c where
  ne _ h := absurd h not_mem_nil
  vValue := (append_nil _).symm
  nTotalLower := (add_zero _).symm
  larger _ h := .inl h
  none h := ⟨h, fun _ h' => absurd h' not_mem_nil⟩

/-- A coin that is not eligible is passed over. -/
theorem Collects.skip {c c' : Collected} (hp : p out = false)
    (h : Collects p nTargetValue nBound vCoins c c') :
    Collects p nTargetValue nBound (out :: vCoins) c c' := by
  have hfilter : ((out :: vCoins).filter fun out => p out && decide (out.nValue < nBound)) =
      vCoins.filter fun out => p out && decide (out.nValue < nBound) :=
    filter_cons_of_neg (by rw [hp]; exact Bool.false_ne_true)
  have hcons : ∀ {q : COutput → Prop}, (∀ o ∈ vCoins, p o = true → q o) →
      ∀ o ∈ out :: vCoins, p o = true → q o := by
    intro q hq o ho hpo
    obtain rfl | ho := mem_cons.1 ho
    · rw [hp] at hpo
      cases hpo
    · exact hq o ho hpo
  constructor
  · exact hcons h.ne
  · rw [hfilter, h.vValue]
  · rw [hfilter, h.nTotalLower]
  · exact fun o ho => (h.larger o ho).imp_right fun hl => ⟨mem_cons_of_mem _ hl.1, hl.2⟩
  · exact fun hn => ⟨(h.none hn).1, hcons (h.none hn).2⟩

/-- An eligible coin below the bound is collected. -/
theorem Collects.push {c c' : Collected} (hp : p out = true)
    (hne : out.nValue ≠ nTargetValue) (hlt : out.nValue < nBound)
    (h : Collects p nTargetValue nBound vCoins
      { c with vValue := c.vValue ++ [out], nTotalLower := c.nTotalLower + out.nValue } c') :
    Collects p nTargetValue nBound (out :: vCoins) c c' := by
  have hfilter : ((out :: vCoins).filter fun out => p out && decide (out.nValue < nBound)) =
      out :: vCoins.filter fun out => p out && decide (out.nValue < nBound) :=
    filter_cons_of_pos (by rw [hp, decide_eq_true hlt]; rfl)
  constructor
  · intro o ho hpo
    obtain rfl | ho := mem_cons.1 ho
    · exact hne
    · exact h.ne o ho hpo
  · rw [hfilter, h.vValue, append_assoc]
    rfl
  · rw [hfilter, totalValue_cons, h.nTotalLower, add_assoc]
  · exact fun o ho => (h.larger o ho).imp_right fun hl => ⟨mem_cons_of_mem _ hl.1, hl.2⟩
  · refine fun hn => ⟨(h.none hn).1, fun o ho hpo hle => ?_⟩
    obtain rfl | ho := mem_cons.1 ho
    · exact absurd hlt (not_lt.2 hle)
    · exact (h.none hn).2 o ho hpo hle

/-- A larger coin replaces the one that was kept, or is at least as large. -/
theorem Collects.large {c d c' : Collected} (hp : p out = true)
    (hne : out.nValue ≠ nTargetValue) (hle : nBound ≤ out.nValue)
    (hv : d.vValue = c.vValue) (hn : d.nTotalLower = c.nTotalLower)
    (hlarger : d.coinLowestLarger = some out ∨ d.coinLowestLarger = c.coinLowestLarger ∧
        (c.coinLowestLarger = .none → int64Max ≤ out.nValue))
    (h : Collects p nTargetValue nBound vCoins d c') :
    Collects p nTargetValue nBound (out :: vCoins) c c' := by
  have hfilter : ((out :: vCoins).filter fun out => p out && decide (out.nValue < nBound)) =
      vCoins.filter fun out => p out && decide (out.nValue < nBound) :=
    filter_cons_of_neg (by
      rw [hp, decide_eq_false (not_lt.2 hle)]
      exact Bool.false_ne_true)
  constructor
  · intro o ho hpo
    obtain rfl | ho := mem_cons.1 ho
    · exact hne
    · exact h.ne o ho hpo
  · rw [hfilter, h.vValue, hv]
  · rw [hfilter, h.nTotalLower, hn]
  · intro o ho
    obtain hd | hl := h.larger o ho
    · obtain hout | ⟨hc, -⟩ := hlarger
      · obtain rfl := Option.some.inj (hout.symm.trans hd)
        exact .inr ⟨mem_cons_self, hp, hle⟩
      · exact .inl (hc.symm.trans hd)
    · exact .inr ⟨mem_cons_of_mem _ hl.1, hl.2⟩
  · intro hn'
    obtain ⟨hd, hrest⟩ := h.none hn'
    obtain hout | ⟨hc, hmax⟩ := hlarger
    · cases hout.symm.trans hd
    · refine ⟨hc.symm.trans hd, fun o ho hpo hle' => ?_⟩
      obtain rfl | ho := mem_cons.1 ho
      · exact hmax (hc.symm.trans hd)
      · exact hrest o ho hpo hle'

/-- How the first loop ends: at an eligible coin of the value of the target, or after all coins. -/
def CollectsTo (p : COutput → Bool) (nTargetValue nBound : ℤ) (vCoins : List COutput)
    (c : Collected) : COutput ⊕ Collected → Prop
  | .inl out => out ∈ vCoins ∧ p out = true ∧ out.nValue = nTargetValue
  | .inr c' => Collects p nTargetValue nBound vCoins c c'

theorem CollectsTo.cons {c d : Collected} {r : COutput ⊕ Collected}
    (h : CollectsTo p nTargetValue nBound vCoins d r)
    (himp : ∀ c', Collects p nTargetValue nBound vCoins d c' →
      Collects p nTargetValue nBound (out :: vCoins) c c') :
    CollectsTo p nTargetValue nBound (out :: vCoins) c r := by
  cases r with
  | inl o => exact ⟨mem_cons_of_mem _ h.1, h.2⟩
  | inr c' => exact himp c' h

theorem CollectsTo.of_collectCoins64 (V : CoinView) (nTargetValue : ℤ) (nSpendTime : ℕ)
    (nConfMine nConfTheirs : ℤ) (vCoins : List COutput) (c : Collected) :
    CollectsTo (V.eligible nSpendTime nConfMine nConfTheirs) nTargetValue (add64 nTargetValue cent)
      vCoins c (collectCoins64 V nTargetValue nSpendTime nConfMine nConfTheirs vCoins c) := by
  induction vCoins generalizing c with
  | nil => exact Collects.nil
  | cons out vCoins ih =>
    rw [collectCoins64]
    split_ifs with hp heq hlt hlow
    · exact (ih c).cons fun _ h => h.skip (by simpa using hp)
    · exact ⟨mem_cons_self, by simpa using hp, heq⟩
    · exact (ih _).cons fun _ h => h.push (by simpa using hp) heq hlt
    · exact (ih _).cons fun _ h => .large (d := { c with coinLowestLarger := some out })
        (by simpa using hp) heq (not_lt.1 hlt) rfl rfl (.inl rfl) h
    · refine (ih c).cons fun _ h =>
        h.large (by simpa using hp) heq (not_lt.1 hlt) rfl rfl (.inr ⟨rfl, fun hnone => ?_⟩)
      rw [hnone] at hlow
      exact not_lt.1 hlow

/-! ### The subset search -/

theorem flagged_sublist (vfBest : ℕ → Bool) (vValue : List COutput) :
    (flagged vfBest vValue).Sublist vValue := by
  have hsub := (filter_sublist (l := vValue.zipIdx) (p := fun e => vfBest e.2)).map Prod.fst
  rwa [zipIdx_map_fst] at hsub

theorem flagged_true : flagged (fun _ => true) vValue = vValue := by
  rw [flagged, filter_true, zipIdx_map_fst]

theorem totalValue_flagged_cons {vfBest : ℕ → Bool} : totalValue (flagged vfBest (out :: vValue)) =
      (if vfBest 0 then out.nValue else 0) +
        totalValue (flagged (fun i => vfBest (i + 1)) vValue) := by
  have hrest : ((vValue.zipIdx 1).filter fun e => vfBest e.2).map Prod.fst =
      flagged (fun i => vfBest (i + 1)) vValue := by
    rw [zipIdx_succ, filter_map, map_map]
    rfl
  rw [flagged, zipIdx_cons, filter_cons]
  split_ifs
  · rw [map_cons, hrest, totalValue_cons]
  · rw [hrest, zero_add]

/-- Setting a flag adds the value of its coin. -/
theorem totalValue_flagged_update {vfIncluded : ℕ → Bool} {i : ℕ}
    (hout : vValue[i]? = some out) (hi : vfIncluded i = false) :
    totalValue (flagged (update vfIncluded i true) vValue) =
      totalValue (flagged vfIncluded vValue) + out.nValue := by
  induction vValue generalizing i vfIncluded with
  | nil => cases hout
  | cons x vValue ih =>
    rw [totalValue_flagged_cons, totalValue_flagged_cons]
    cases i with
    | zero =>
      obtain rfl := Option.some.inj hout
      have hshift : (fun j => update vfIncluded 0 true (j + 1)) = fun j => vfIncluded (j + 1) := by
        funext j
        exact update_of_ne (Nat.succ_ne_zero j) _ _
      rw [hshift, update_self, if_pos rfl, hi, if_neg Bool.false_ne_true]
      omega
    | succ i =>
      have hshift : (fun j => update vfIncluded (i + 1) true (j + 1)) =
          update (fun j => vfIncluded (j + 1)) i true := by
        funext j
        by_cases hj : j = i
        · rw [hj, update_self, update_self]
        · rw [update_of_ne hj, update_of_ne fun h => hj (Nat.succ_inj.1 h)]
      rw [hshift, update_of_ne (Nat.succ_ne_zero i).symm, ih hout hi, add_assoc]

/-- The invariant of a round: the running total is that of the included coins, and the best value is
that of the best coins and reaches the target. -/
structure SubsetRound.Inv (nTargetValue : ℤ) (vValue : List COutput) (s : SubsetRound) : Prop where
  nTotal : s.nTotal = totalValue (flagged s.vfIncluded vValue)
  nBest : s.nBest = totalValue (flagged s.vfBest vValue)
  target : nTargetValue ≤ s.nBest

variable {wants : ℕ → SubsetRound → Bool} {s : SubsetRound}

/-- One coin keeps the invariant, if it is not included yet. -/
theorem SubsetRound.Inv.subsetCoin {i : ℕ} (h : s.Inv nTargetValue vValue)
    (hout : vValue[i]? = some out) (hwants : wants i s = true → s.vfIncluded i = false) :
    (subsetCoin nTargetValue wants s i out).Inv nTargetValue vValue := by
  rw [Espers.subsetCoin]
  by_cases hw : wants i s = true
  · have hadd := totalValue_flagged_update hout (hwants hw)
    rw [← h.nTotal] at hadd
    dsimp only
    split_ifs with hreached hbetter
    · constructor
      · dsimp only
        rw [update_idem, update_eq_self_iff.2 (hwants hw).symm, ← h.nTotal]
        omega
      · exact hadd.symm
      · exact hreached
    · constructor
      · dsimp only
        rw [update_idem, update_eq_self_iff.2 (hwants hw).symm, ← h.nTotal]
        omega
      · exact h.nBest
      · exact h.target
    · exact ⟨hadd.symm, h.nBest, h.target⟩
  · rw [if_neg hw]
    exact h

theorem subsetCoin_vfIncluded {i j : ℕ} (hj : j ≠ i) :
    (subsetCoin nTargetValue wants s i out).vfIncluded j = s.vfIncluded j := by
  rw [subsetCoin]
  dsimp only
  split_ifs
  · exact (update_of_ne hj _ _).trans (update_of_ne hj _ _)
  · exact (update_of_ne hj _ _).trans (update_of_ne hj _ _)
  · exact update_of_ne hj _ _
  · rfl

/-- A pass keeps the invariant, if it only wants coins that are not included, or if no coin from
its start on is included. -/
theorem SubsetRound.Inv.subsetPass {front : List COutput}
    (h : s.Inv nTargetValue (front ++ vValue)) (wants : ℕ → SubsetRound → Bool)
    (hwants : (∀ i s, wants i s = true → s.vfIncluded i = false) ∨
      ∀ i, front.length ≤ i → s.vfIncluded i = false) :
    (subsetPass nTargetValue wants front.length vValue s).Inv nTargetValue (front ++ vValue) := by
  induction vValue generalizing front s with
  | nil => exact h
  | cons out vValue ih =>
    have hout : (front ++ out :: vValue)[front.length]? = some out := by
      rw [getElem?_append_right le_rfl, Nat.sub_self]
      rfl
    have hstep := h.subsetCoin hout fun hw => hwants.elim (fun hall => hall _ _ hw)
      fun hnew => hnew _ le_rfl
    rw [Espers.subsetPass]
    rw [append_cons] at hstep ⊢
    have hlen : (front ++ [out]).length = front.length + 1 := by rw [length_append]; rfl
    rw [← hlen]
    refine ih hstep (hwants.imp_right fun hnew i hi => ?_)
    rw [subsetCoin_vfIncluded (by omega)]
    exact hnew i (by omega)

/-- The flags and the value that a subset search may end with. -/
def IsBest (nTargetValue : ℤ) (vValue : List COutput) (best : (ℕ → Bool) × ℤ) : Prop :=
  best.2 = totalValue (flagged best.1 vValue) ∧ nTargetValue ≤ best.2

theorem subsetRounds_best {D : Draws} {nRep iterations : ℕ} {best : (ℕ → Bool) × ℤ}
    (h : IsBest nTargetValue vValue best) :
    IsBest nTargetValue vValue (subsetRounds D vValue nTargetValue nRep iterations best) := by
  induction iterations generalizing nRep best with
  | zero => exact h
  | succ iterations ih =>
    rw [subsetRounds]
    by_cases heq : best.2 = nTargetValue
    · rw [if_pos heq]
      exact h
    have hstart : SubsetRound.Inv nTargetValue ([] ++ vValue)
        ⟨fun _ => false, 0, false, best.1, best.2⟩ := by
      refine ⟨?_, h.1, h.2⟩
      rw [flagged, filter_false]
      rfl
    have hfirst := hstart.subsetPass (fun i _ => D.bit nRep i) (.inr fun _ _ => rfl)
    have hsecond := hfirst.subsetPass (fun i s => !s.vfIncluded i)
      (.inl fun i s hw => by simpa using hw)
    dsimp only
    split_ifs
    · exact ih ⟨hfirst.nBest, hfirst.target⟩
    · exact ih ⟨hsecond.nBest, hsecond.target⟩

theorem approximateBestSubset_best {D : Draws} {nTotalLower : ℤ}
    (hlower : nTotalLower = totalValue vValue) (h : nTargetValue ≤ nTotalLower) :
    IsBest nTargetValue vValue (approximateBestSubset D vValue nTotalLower nTargetValue) :=
  subsetRounds_best ⟨by rw [flagged_true]; exact hlower, h⟩

/-! ### When the contract holds -/

theorem totalValue_filter_add_not (vCoins : List COutput) (p q : COutput → Bool) :
    totalValue (vCoins.filter fun out => p out && q out) +
      totalValue (vCoins.filter fun out => p out && !q out) = totalValue (vCoins.filter p) := by
  induction vCoins with
  | nil => rfl
  | cons out vCoins ih =>
    cases hp : p out <;> cases hq : q out <;>
      simp only [filter_cons, hp, hq, Bool.and_true, Bool.and_false, Bool.not_true,
        Bool.not_false, if_true, if_false, totalValue_cons, Bool.false_eq_true] <;>
      omega

section Contract

variable {D D' : Draws} {c : Collected}

section

variable
  (h : Collects (V.eligible nSpendTime nConfMine nConfTheirs) nTargetValue nBound (D.shuffle vCoins) ⟨.none, [], 0⟩ c)
include h

theorem Collects.subperm :
    c.vValue.Subperm (vCoins.filter (V.eligible nSpendTime nConfMine nConfTheirs)) := by
  have hperm := (D.shuffle_perm vCoins).filter (V.eligible nSpendTime nConfMine nConfTheirs)
  have hsub := filter_sublist
    (l := (D.shuffle vCoins).filter (V.eligible nSpendTime nConfMine nConfTheirs))
    (p := fun out => decide (out.nValue < nBound))
  rw [filter_filter] at hsub
  have heq : c.vValue = (D.shuffle vCoins).filter fun out =>
      decide (out.nValue < nBound) && V.eligible nSpendTime nConfMine nConfTheirs out := by
    rw [h.vValue, nil_append]
    congr 1
    funext out
    exact Bool.and_comm _ _
  rw [heq]
  exact hsub.subperm.trans hperm.subperm

/-- Without a larger coin the small ones have the value of all eligible coins. -/
theorem Collects.totalValue_eq (hnonneg : ∀ out ∈ vCoins, 0 ≤ out.nValue)
    (htotal : totalValue vCoins < 9223372036854775808 - cent) (hnone : c.coinLowestLarger = .none) :
    totalValue (vCoins.filter (V.eligible nSpendTime nConfMine nConfTheirs)) = c.nTotalLower := by
  have hlarge : ((D.shuffle vCoins).filter fun out =>
      V.eligible nSpendTime nConfMine nConfTheirs out && !decide (out.nValue < nBound)) = [] := by
    refine filter_eq_nil_iff.2 fun out hout hp => ?_
    rw [Bool.and_eq_true, Bool.not_eq_true', decide_eq_false_iff_not, not_lt] at hp
    have hmax := (h.none hnone).2 out hout hp.1 hp.2
    have hle := nValue_le_totalValue hnonneg ((D.shuffle_perm vCoins).mem_iff.1 hout)
    unfold int64Max at hmax
    unfold cent at htotal
    omega
  have hsplit := totalValue_filter_add_not (D.shuffle vCoins)
    (V.eligible nSpendTime nConfMine nConfTheirs) fun out => decide (out.nValue < nBound)
  rw [hlarge, totalValue_perm ((D.shuffle_perm vCoins).filter (V.eligible _ _ _))] at hsplit
  rw [h.nTotalLower, ← hsplit]
  exact (add_zero _).trans (zero_add _).symm

end

theorem totalValue_singleton : totalValue [out] = out.nValue := by
  exact add_zero _

theorem SelectsCoins.single (hdistinct : (vCoins.map COutput.prevout).Nodup)
    (hnonneg : ∀ out ∈ vCoins, 0 ≤ out.nValue) (hout : out ∈ D.shuffle vCoins)
    (hp : V.eligible nSpendTime nConfMine nConfTheirs out = true)
    (hle : nTargetValue ≤ out.nValue) :
    SelectsCoins V nTargetValue nSpendTime nConfMine nConfTheirs vCoins
      (.insertAll [out] .clear) :=
  .insertAll hdistinct hnonneg
    (singleton_subperm_iff.2 (mem_filter.2 ⟨(D.shuffle_perm vCoins).mem_iff.1 hout, hp⟩))
    (by rw [totalValue_singleton]; exact hle)

/-- If the target and a cent do not overflow, every exit meets the contract. -/
theorem selectCoinsMinConf64_of_fits (hdistinct : (vCoins.map COutput.prevout).Nodup)
    (hnonneg : ∀ out ∈ vCoins, 0 ≤ out.nValue)
    (htotal : totalValue vCoins < 9223372036854775808 - cent) (hpos : 0 < nTargetValue)
    (hfits : nTargetValue + cent < 9223372036854775808) :
    SelectsCoins V nTargetValue nSpendTime nConfMine nConfTheirs vCoins
      (selectCoinsMinConf64 V D D' nTargetValue nSpendTime nConfMine nConfTheirs vCoins) := by
  have hadd : add64 nTargetValue cent = nTargetValue + cent :=
    wrap64_of_range (by unfold cent; omega) hfits
  have hcollect := CollectsTo.of_collectCoins64 V nTargetValue nSpendTime nConfMine nConfTheirs
    (D.shuffle vCoins) ⟨none, [], 0⟩
  rw [hadd] at hcollect
  rw [selectCoinsMinConf64, hadd]
  cases hc : collectCoins64 V nTargetValue nSpendTime nConfMine nConfTheirs (D.shuffle vCoins)
    ⟨none, [], 0⟩ with
  | inl out =>
    rw [hc] at hcollect
    exact .single hdistinct hnonneg hcollect.1 hcollect.2.1 hcollect.2.2.ge
  | inr c =>
    rw [hc] at hcollect
    have hlower : c.nTotalLower = totalValue c.vValue := by
      rw [hcollect.nTotalLower, hcollect.vValue]
      exact zero_add _
    have hlarger : ∀ out, c.coinLowestLarger = some out → SelectsCoins V nTargetValue nSpendTime
        nConfMine nConfTheirs vCoins (.insertAll [out] .clear) := by
      intro out hout
      obtain hnone | ⟨hmem, hp, hle⟩ := hcollect.larger out hout
      · cases hnone
      · exact .single hdistinct hnonneg hmem hp (by unfold cent at hle; omega)
    dsimp only
    by_cases heq : c.nTotalLower = nTargetValue
    · rw [if_pos heq]
      exact .insertAll hdistinct hnonneg hcollect.subperm (heq.symm.trans hlower).le
    rw [if_neg heq]
    by_cases hlt : c.nTotalLower < nTargetValue
    · rw [if_pos hlt]
      cases hout : c.coinLowestLarger with
      | none => exact .clear ((hcollect.totalValue_eq hnonneg htotal hout).trans_lt hlt)
      | some out => exact hlarger out hout
    rw [if_neg hlt]
    have hsorted := mergeSort_perm c.vValue fun a b => decide (a.nValue ≥ b.nValue)
    rw [totalValue_perm hsorted.symm] at hlower
    generalize (c.vValue.mergeSort fun a b => decide (a.nValue ≥ b.nValue)) = vValue at *
    have hfirst := approximateBestSubset_best (D := D) hlower (not_lt.1 hlt)
    have hbest : IsBest nTargetValue vValue
        (if (approximateBestSubset D vValue c.nTotalLower nTargetValue).2 ≠ nTargetValue ∧
            c.nTotalLower ≥ nTargetValue + cent then
          approximateBestSubset D' vValue c.nTotalLower (nTargetValue + cent)
        else approximateBestSubset D vValue c.nTotalLower nTargetValue) := by
      split_ifs with hagain
      · have hsecond := approximateBestSubset_best (D := D') hlower hagain.2
        exact ⟨hsecond.1, le_trans (by unfold cent; omega) hsecond.2⟩
      · exact hfirst
    generalize (if (approximateBestSubset D vValue c.nTotalLower nTargetValue).2 ≠ nTargetValue ∧
        c.nTotalLower ≥ nTargetValue + cent then
      approximateBestSubset D' vValue c.nTotalLower (nTargetValue + cent)
      else approximateBestSubset D vValue c.nTotalLower nTargetValue) = best at *
    have hflagged : SelectsCoins V nTargetValue nSpendTime nConfMine nConfTheirs vCoins
        (.insertAll (flagged best.1 vValue) .clear) := by
      have hsub := (flagged_sublist best.1 vValue).subperm.trans hsorted.subperm
      exact .insertAll hdistinct hnonneg (hsub.trans hcollect.subperm) (hbest.1 ▸ hbest.2)
    cases hout : c.coinLowestLarger with
    | none => exact hflagged
    | some out =>
      dsimp only
      split_ifs
      · exact hlarger out hout
      · exact hflagged

/-- If they overflow, every eligible coin counts as larger; so one of them is taken, although all of
them are worth less than the target. -/
theorem selectCoinsMinConf64_of_overflow (V : CoinView) (D D' : Draws) (nSpendTime : ℕ)
    (nConfMine nConfTheirs : ℤ) (hnonneg : ∀ out ∈ vCoins, 0 ≤ out.nValue)
    (htotal : totalValue vCoins < 9223372036854775808 - cent)
    (htarget : nTargetValue < 9223372036854775808)
    (hover : 9223372036854775808 ≤ nTargetValue + cent) :
    (selectCoinsMinConf64 V D D' nTargetValue nSpendTime nConfMine nConfTheirs vCoins = .clear ∧
        ∀ out ∈ vCoins, V.eligible nSpendTime nConfMine nConfTheirs out = false) ∨
      ∃ out ∈ vCoins, V.eligible nSpendTime nConfMine nConfTheirs out = true ∧
        selectCoinsMinConf64 V D D' nTargetValue nSpendTime nConfMine nConfTheirs vCoins =
          .insertAll [out] .clear := by
  have hneg : add64 nTargetValue cent < 0 := by
    unfold add64 wrap64 cent at *
    omega
  have hcollect := CollectsTo.of_collectCoins64 V nTargetValue nSpendTime nConfMine nConfTheirs
    (D.shuffle vCoins) ⟨none, [], 0⟩
  have hmem : ∀ out, out ∈ D.shuffle vCoins ↔ out ∈ vCoins := fun out =>
    (D.shuffle_perm vCoins).mem_iff
  rw [selectCoinsMinConf64]
  cases hc : collectCoins64 V nTargetValue nSpendTime nConfMine nConfTheirs (D.shuffle vCoins)
    ⟨none, [], 0⟩ with
  | inl out =>
    rw [hc] at hcollect
    exact .inr ⟨out, (hmem out).1 hcollect.1, hcollect.2.1, rfl⟩
  | inr c =>
    rw [hc] at hcollect
    have hsmall : ((D.shuffle vCoins).filter fun out =>
        V.eligible nSpendTime nConfMine nConfTheirs out &&
          decide (out.nValue < add64 nTargetValue cent)) = [] := by
      refine filter_eq_nil_iff.2 fun out hout hp => ?_
      rw [Bool.and_eq_true, decide_eq_true_eq] at hp
      have hle := hnonneg out ((hmem out).1 hout)
      omega
    have hzero : c.nTotalLower = 0 := by
      rw [hcollect.nTotalLower, hsmall]
      rfl
    have hpos : (0 : ℤ) < nTargetValue := by
      unfold cent at hover
      omega
    dsimp only
    rw [hzero, if_neg hpos.ne, if_pos hpos]
    cases hout : c.coinLowestLarger with
    | none =>
      refine .inl ⟨rfl, fun out hin => ?_⟩
      by_contra hp
      have hmax := (hcollect.none hout).2 out ((hmem out).2 hin) (Bool.not_eq_false _ ▸ hp)
        (by have := hnonneg out hin; omega)
      have hle := nValue_le_totalValue hnonneg hin
      unfold int64Max at hmax
      omega
    | some out =>
      obtain hnone | ⟨hin, hp, -⟩ := hcollect.larger out hout
      · cases hnone
      · exact .inr ⟨out, (hmem out).1 hin, hp, rfl⟩

theorem not_selectsCoins_insertAll (hnonneg : ∀ out ∈ vCoins, 0 ≤ out.nValue)
    (htotal : totalValue vCoins < nTargetValue) :
    ¬ SelectsCoins V nTargetValue nSpendTime nConfMine nConfTheirs vCoins
      (.insertAll coins .clear) := fun h =>
  absurd (h.fRet_iff.1 rfl)
    (not_le.2 ((totalValue_filter_le hnonneg).trans_lt htotal))

/-- **The contract of `SelectCoinsMinConf`**, for any draws: it holds exactly if the sum of the
target and a cent does not overflow, or no coin is eligible. -/
theorem selectCoinsMinConf_contract_iff (D D' : Draws) (V : CoinView) (nTargetValue : ℤ)
    (nSpendTime : ℕ) (nConfMine nConfTheirs : ℤ) (vCoins : List COutput)
    (hdistinct : (vCoins.map COutput.prevout).Nodup) (hnonneg : ∀ out ∈ vCoins, 0 ≤ out.nValue)
    (htotal : totalValue vCoins < 2 ^ 63 - cent) (hpos : 0 < nTargetValue)
    (htarget : nTargetValue < 2 ^ 63) :
    SelectsCoins V nTargetValue nSpendTime nConfMine nConfTheirs vCoins
        (selectCoinsMinConf64 V D D' nTargetValue nSpendTime nConfMine nConfTheirs vCoins) ↔
      nTargetValue + cent < 2 ^ 63 ∨
        ∀ out ∈ vCoins, V.eligible nSpendTime nConfMine nConfTheirs out = false := by
  constructor
  · intro h
    by_contra hnot
    rw [not_or, not_lt] at hnot
    have hless : totalValue vCoins < nTargetValue := by
      omega
    obtain ⟨-, hall⟩ | ⟨out, -, -, hret⟩ := selectCoinsMinConf64_of_overflow V D D'
      nSpendTime nConfMine nConfTheirs hnonneg htotal htarget hnot.1
    · exact hnot.2 hall
    · rw [hret] at h
      exact not_selectsCoins_insertAll hnonneg hless h
  · intro h
    by_cases hfits : nTargetValue + cent < 9223372036854775808
    · exact selectCoinsMinConf64_of_fits hdistinct hnonneg htotal hpos hfits
    · have hnone := h.resolve_left hfits
      obtain ⟨hret, -⟩ | ⟨out, hin, hp, -⟩ := selectCoinsMinConf64_of_overflow V D D'
        nSpendTime nConfMine nConfTheirs hnonneg htotal htarget (not_lt.1 hfits)
      · rw [hret]
        refine .clear ?_
        have hnil : vCoins.filter (V.eligible nSpendTime nConfMine nConfTheirs) = [] :=
          filter_eq_nil_iff.2 fun out hout => by
            rw [hnone out hout]
            exact Bool.false_ne_true
        rw [hnil]
        exact hpos
      · rw [hnone out hin] at hp
        cases hp

/-- A coin of that many coins. -/
def coinOf (hash : Uint256) (n : ℤ) : COutput :=
  ⟨.ofTx ⟨1, 0, [⟨⟨9, 0⟩, [], 0⟩], [⟨n * coin, []⟩], 0⟩, hash, 0, 1000⟩

/-- Two of three coins are worth the target. -/
theorem selectCoinsMinConf_contract_three :
    SelectsCoins deepView (1500 * coin) 0 1 10 [coinOf 1 1000, coinOf 2 800, coinOf 3 700]
      (selectCoinsMinConf64 deepView .plain .plain (1500 * coin) 0 1 10
        [coinOf 1 1000, coinOf 2 800, coinOf 3 700]) :=
  (selectCoinsMinConf_contract_iff .plain .plain deepView (1500 * coin) 0 1 10
    [coinOf 1 1000, coinOf 2 800, coinOf 3 700]
    (by decide) (by decide) (by decide) (by decide) (by decide)).2 (.inl (by decide))

/-- A coin of 1000 is also selected for nearly `2^63`: with a cent the target is negative. -/
theorem selectCoinsMinConf_short :
    ([collateral].map COutput.prevout).Nodup ∧ (∀ out ∈ [collateral], 0 ≤ out.nValue) ∧
    totalValue [collateral] < 2 ^ 63 - cent ∧
    selectCoinsMinConf64 deepView .plain .plain (2 ^ 63 - 1) 0 1 10 [collateral] =
      ⟨true, [collateral], 1000 * coin⟩ ∧
    ¬ SelectsCoins deepView (2 ^ 63 - 1) 0 1 10 [collateral]
      (selectCoinsMinConf64 deepView .plain .plain (2 ^ 63 - 1) 0 1 10 [collateral]) := by
  have hret : selectCoinsMinConf64 deepView .plain .plain (2 ^ 63 - 1) 0 1 10 [collateral] =
      ⟨true, [collateral], 1000 * coin⟩ := by decide
  refine ⟨by decide, by decide, by decide, hret, fun h => ?_⟩
  have hexact := (h.exact (by rw [hret])).2
  exact absurd hexact (by decide)

end Contract

end Espers
