import Espers.Wallet.Coins
import Mathlib.Data.Finset.Basic
import Mathlib.Algebra.BigOperators.Group.List.Basic

/-!
# Locked coins

`LockCoin` puts an outpoint into a set that no selection of coins looks at.

* `selectCoins_subset`, `createTransaction_subset`, `createCoinStake_subset` : what is spent was on
  offer.
* `lockedCoins_unspent` : **a locked coin is safe exactly while it is not on offer**.
-/

namespace Espers

open Exec List Except Bool Int
open Option (some)

variable {K : Keystore} {V : CoinView} {w : Wallet} {D : Draws} {nTargetValue denom : ℤ}
  {nSpendTime : ℕ} {nConfMine nConfTheirs : ℤ} {vCoins coins : List COutput} {P : COutput → Prop}

/-! ### What is selected was on offer -/

/-- All coins that were collected satisfy a condition. -/
structure Collected.All (P : COutput → Prop) (c : Collected) : Prop where
  larger : ∀ out, c.coinLowestLarger = some out → P out
  vValue : ∀ out ∈ c.vValue, P out

theorem Collected.All.none : Collected.All P ⟨.none, [], 0⟩ where
  larger _ h := (nomatch h)
  vValue _ h := absurd h not_mem_nil

variable {out : COutput} {c : Collected}

theorem Collected.All.push {n : ℤ} (h : c.All P) (ho : P out) :
    Collected.All P { c with vValue := c.vValue ++ [out], nTotalLower := n } where
  larger := h.larger
  vValue out' hmem := by
    rcases mem_append.1 hmem with hmem | hmem
    · exact h.vValue out' hmem
    · obtain rfl := mem_singleton.1 hmem
      exact ho

theorem Collected.All.lower (h : c.All P) (ho : P out) :
    Collected.All P { c with coinLowestLarger := some out } where
  larger _ heq := some.inj heq ▸ ho
  vValue := h.vValue

theorem collectCoins_all (V : CoinView) (nTargetValue : ℤ) (nSpendTime : ℕ)
    (nConfMine nConfTheirs : ℤ) (hP : ∀ out ∈ vCoins, P out) (hc : c.All P) :
    (∀ out, collectCoins V nTargetValue nSpendTime nConfMine nConfTheirs vCoins c =
    .inl out → P out) ∧ ∀ c', collectCoins V nTargetValue nSpendTime nConfMine nConfTheirs vCoins
    c = .inr c' → c'.All P := by
  induction vCoins generalizing c with
  | nil => exact ⟨fun _ h => (nomatch h), fun c' h => Sum.inr.inj h ▸ hc⟩
  | cons out vCoins ih =>
    have ho := hP out mem_cons_self
    have hrest := fun out' h => hP out' (mem_cons_of_mem _ h)
    rw [collectCoins]
    split_ifs
    · exact ih hrest hc
    · exact ⟨fun out' h => Sum.inl.inj h ▸ ho, fun _ h => (nomatch h)⟩
    · exact ih hrest (hc.push ho)
    · exact ih hrest (hc.lower ho)
    · exact ih hrest hc

theorem collectByAge_all (V : CoinView) (nTargetValue : ℤ) (nSpendTime : ℕ)
    (nConfMine nConfTheirs : ℤ) (hP : ∀ out ∈ vCoins, P out) (hc : c.All P) :
    (collectByAge V nTargetValue nSpendTime nConfMine nConfTheirs vCoins c).All P := by
  induction vCoins generalizing c with
  | nil => exact hc
  | cons out vCoins ih =>
    have ho := hP out mem_cons_self
    have hrest := fun out' h => hP out' (mem_cons_of_mem _ h)
    rw [collectByAge]
    split_ifs
    · exact ih hrest hc
    · exact ih hrest (hc.push ho)
    · exact ih hrest (hc.lower ho)
    · exact ih hrest hc

/-- All coins of an answer satisfy a condition. -/
def Selection.All (P : COutput → Prop) (ret : Selection) : Prop :=
    ∀ r, ret = some r → ∀ out ∈ r.1, P out

theorem Selection.all_some {r : List COutput × ℤ} : Selection.All P (some r) ↔ ∀ out ∈ r.1, P out :=
  ⟨fun h => h r rfl, fun h _ heq => some.inj heq ▸ h⟩

theorem selectAll_all (h : ∀ out ∈ coins, P out) : Selection.All P (selectAll coins) :=
  Selection.all_some.2 h

theorem mem_of_mem_flagged {vfBest : ℕ → Bool} (h : out ∈ flagged vfBest vCoins) :
    out ∈ vCoins := by
  obtain ⟨e, he, rfl⟩ := mem_map.1 h
  exact fst_mem_of_mem_zipIdx (mem_of_mem_filter he)

theorem selectCoinsMinConf_all (hP : ∀ out ∈ vCoins, P out) :
    (selectCoinsMinConf V D nTargetValue nSpendTime nConfMine nConfTheirs vCoins).All P := by
  have hshuffle : ∀ out ∈ D.shuffle vCoins, P out := fun out h =>
    hP out ((D.shuffle_perm vCoins).mem_iff.1 h)
  have hcollect := collectCoins_all V nTargetValue nSpendTime nConfMine nConfTheirs hshuffle .none
  rw [selectCoinsMinConf]
  cases hc : collectCoins V nTargetValue nSpendTime nConfMine nConfTheirs (D.shuffle vCoins)
    ⟨none, [], 0⟩ with
  | inl out =>
    exact selectAll_all fun out' h => mem_singleton.1 h ▸ hcollect.1 out hc
  | inr c =>
    have hall := hcollect.2 c hc
    have hlarger : ∀ out, c.coinLowestLarger = some out → Selection.All P (selectAll [out]) :=
      fun out h =>
      selectAll_all fun out' h' => mem_singleton.1 h' ▸ hall.larger out h
    have hflagged : ∀ vfBest, Selection.All P (selectAll (flagged vfBest
        (c.vValue.mergeSort fun a b => decide (a.nValue ≥ b.nValue)))) := fun vfBest =>
      selectAll_all fun out h => hall.vValue out (mem_mergeSort.1 (mem_of_mem_flagged h))
    dsimp only
    by_cases h1 : c.nTotalLower = nTargetValue
    · rw [if_pos h1]
      exact selectAll_all hall.vValue
    · rw [if_neg h1]
      by_cases h2 : c.nTotalLower < nTargetValue
      · rw [if_pos h2]
        cases hl : c.coinLowestLarger with
        | none => exact fun _ h => (nomatch h)
        | some out => exact hlarger out hl
      · rw [if_neg h2]
        cases hl : c.coinLowestLarger with
        | none => exact hflagged _
        | some out =>
          dsimp only
          split_ifs
          · exact hlarger out hl
          · exact hflagged _
          · exact hlarger out hl
          · exact hflagged _

/-- All coins of an item satisfy a condition. -/
def Item.All (P : COutput → Prop) (item : Item) : Prop := ∀ out ∈ item.coins, P out

theorem forall_mem_append {coins' : List COutput} (h : ∀ out ∈ coins, P out)
    (h' : ∀ out ∈ coins', P out) : ∀ out ∈ coins ++ coins', P out :=
    fun out hmem => (mem_append.1 hmem).elim (h out) (h' out)

theorem forall_mem_snoc (h : ∀ out ∈ coins, P out) (ho : P out) : ∀ out' ∈ coins ++ [out], P out' :=
  forall_mem_append h fun _ hmem => mem_singleton.1 hmem ▸ ho

theorem bundle_all (V : CoinView) (denom : ℤ) {pBundle : Item} (hP : ∀ out ∈ vCoins, P out)
    (hb : pBundle.All P) : (∀ item ∈ (bundle V denom pBundle vCoins).1, item.All P) ∧
      ∀ out ∈ (bundle V denom pBundle vCoins).2, P out := by
  induction vCoins generalizing pBundle with
  | nil => exact ⟨fun _ h => absurd h not_mem_nil, hb⟩
  | cons out small ih =>
    have hrest := fun out' h => hP out' (mem_cons_of_mem _ h)
    have hgrown := forall_mem_snoc hb (hP out mem_cons_self)
    rw [bundle]
    split_ifs
    · obtain ⟨hitems, hleft⟩ := ih hrest
        (show Item.All P ⟨0, 0, []⟩ from fun _ h => absurd h not_mem_nil)
      refine ⟨fun item hmem => ?_, hleft⟩
      rcases mem_cons.1 hmem with rfl | hmem
      · exact hgrown
      · exact hitems item hmem
    · exact ih hrest hgrown

variable {ret : List COutput × ℤ} {items : List Item}

theorem prepick_all {nTotalValue : ℤ}
    (hitems : ∀ item ∈ items, item.All P) (hret : ∀ out ∈ ret.1, P out) :
    (∀ item ∈ (prepick nTargetValue denom items nTotalValue ret).1, item.All P) ∧
      ∀ out ∈ (prepick nTargetValue denom items nTotalValue ret).2.2.1, P out := by
  induction items generalizing nTotalValue ret with
  | nil => exact ⟨fun _ h => absurd h not_mem_nil, hret⟩
  | cons item items ih =>
    rw [prepick]
    split_ifs
    · exact ih (fun item' h => hitems item' (mem_cons_of_mem _ h))
        (forall_mem_append hret (hitems item mem_cons_self))
    · exact ⟨hitems, hret⟩

theorem traceBack_all {nPrev : ℕ}
    (hitems : ∀ item ∈ items, item.All P) (hret : ∀ out ∈ ret.1, P out) :
    ∀ out ∈ (traceBack denom items nPrev ret).1, P out := by
  induction items generalizing nPrev ret with
  | nil => exact hret
  | cons item items ih =>
    have hrest := fun item' h => hitems item' (mem_cons_of_mem _ h)
    rw [traceBack]
    split_ifs
    · exact ih hrest (forall_mem_append hret (hitems item mem_cons_self))
    · exact ih hrest hret

theorem addLeftOver_all (hP : ∀ out ∈ vCoins, P out)
    (hret : ∀ out ∈ ret.1, P out) : ∀ out ∈ (addLeftOver nTargetValue vCoins ret).1, P out := by
  induction vCoins generalizing ret with
  | nil => exact hret
  | cons out rest ih =>
    rw [addLeftOver]
    split_ifs
    · exact ih (fun out' h => hP out' (mem_cons_of_mem _ h))
        (forall_mem_snoc hret (hP out mem_cons_self))
    · exact hret

variable {r : Selection}

theorem solve_all {nTotalValue : ℤ} {rest : List COutput} (hitems : ∀ item ∈ items, item.All P)
    (hrest : ∀ out ∈ rest, P out) (hret : ∀ out ∈ ret.1, P out)
    (h : solve nTargetValue denom items nTotalValue rest ret = .ok r) : r.All P := by
  unfold solve at h
  dsimp only at h
  split_ifs at h
  all_goals
    obtain rfl := ok.inj h
    exact Selection.all_some.2 (addLeftOver_all hrest
      (traceBack_all (fun item hmem => hitems item (mem_reverse.1 hmem)) hret))

theorem single_all (hP : ∀ out ∈ vCoins, P out) : ∀ item ∈ vCoins.map V.single, item.All P := by
  intro item hmem
  obtain ⟨out, ho, rfl⟩ := mem_map.1 hmem
  exact fun out' h => mem_singleton.1 h ▸ hP out ho

theorem solveBundled_all (hP : ∀ out ∈ vCoins, P out)
    (h : solveBundled V nTargetValue denom vCoins = .ok r) : r.All P := by
  unfold solveBundled at h
  dsimp only at h
  have hnil : ∀ out ∈ (⟨0, 0, []⟩ : Item).coins, P out := fun _ h => absurd h not_mem_nil
  have hsmall : ∀ out ∈ vCoins.filter fun out => !decide (out.nValue ≥ denom), P out :=
    fun out hmem =>
    hP out (mem_of_mem_filter hmem)
  obtain ⟨hbundles, hrest⟩ := bundle_all V denom hsmall hnil
  have hitems : ∀ item ∈ (vCoins.filter fun out => decide (out.nValue ≥ denom)).map V.single ++
      (bundle V denom ⟨0, 0, []⟩ (vCoins.filter fun out => !decide (out.nValue ≥ denom))).1,
      item.All P := by
    intro item hmem
    rcases mem_append.1 hmem with hmem | hmem
    · exact single_all (fun out h => hP out (mem_of_mem_filter h)) item hmem
    · exact hbundles item hmem
  split_ifs at h
  · obtain rfl := ok.inj h
    exact Selection.all_some.2 (prepick_all hitems hnil).2
  · exact solve_all (prepick_all hitems hnil).1 hrest (prepick_all hitems hnil).2 h
  · exact solve_all hitems hrest hnil h

theorem selectCoinsMinConfByCoinAge_all (hP : ∀ out ∈ vCoins, P out)
    (h : selectCoinsMinConfByCoinAge V nTargetValue nSpendTime nConfMine nConfTheirs vCoins =
    .ok r) : r.All P := by
  unfold selectCoinsMinConfByCoinAge at h
  have hall := collectByAge_all V nTargetValue nSpendTime nConfMine nConfTheirs
    (fun out hmem => hP out (mem_mergeSort.1 hmem) : ∀ out ∈ vCoins.mergeSort fun a b =>
        decide (V.coinWeightCost a.tx a.i ≤ V.coinWeightCost b.tx b.i), P out) .none
  dsimp only at h
  generalize collectByAge V nTargetValue nSpendTime nConfMine nConfTheirs _ _ = c at h hall
  by_cases h1 : c.nTotalLower < nTargetValue
  · rw [if_pos h1] at h
    cases hl : c.coinLowestLarger with
    | none =>
      simp only [hl] at h
      obtain rfl := ok.inj h
      exact fun _ h => (nomatch h)
    | some out =>
      simp only [hl] at h
      obtain rfl := ok.inj h
      exact selectAll_all fun out' h' => mem_singleton.1 h' ▸ hall.larger out hl
  · rw [if_neg h1] at h
    split_ifs at h
    · obtain rfl := ok.inj h
      exact selectAll_all hall.vValue
    · exact solveBundled_all hall.vValue h
    · exact solve_all (single_all hall.vValue) (fun _ h => absurd h not_mem_nil)
        (fun _ h => absurd h not_mem_nil) h

/-- `AvailableCoins` without user-selected coins. -/
def Wallet.spendable (K : Keystore) (V : CoinView) (w : Wallet) : List COutput :=
  w.offer K V (V.skips true) fun _ _ => true

/-- `AvailableCoinsForStaking`. -/
def Wallet.stakeable (K : Keystore) (V : CoinView) (w : Wallet) (nSpendTime : ℕ) : List COutput :=
  w.offer K V (V.skipsForStaking nSpendTime) fun _ _ => true

theorem selectOnce_all {fMinimizeCoinAge : Bool} (hP : ∀ out ∈ vCoins, P out)
    (h : selectOnce V D fMinimizeCoinAge nTargetValue nSpendTime nConfMine nConfTheirs vCoins =
    .ok r) : r.All P := by
  unfold selectOnce at h
  split_ifs at h
  · exact selectCoinsMinConfByCoinAge_all hP h
  · obtain rfl := ok.inj h
    exact selectCoinsMinConf_all hP

theorem selectCoins_all {draws : ℕ → Draws} {fMinimizeCoinAge : Bool}
    (h : selectCoins K V w draws fMinimizeCoinAge nTargetValue nSpendTime [] = .ok r) :
    r.All (· ∈ w.spendable K V) := by
  obtain ⟨r0, h0, h⟩ := except_bind_eq_ok.1 h
  cases r0 with
  | some ret =>
    obtain rfl := ok.inj h
    exact selectOnce_all (fun _ => id) h0
  | none =>
    obtain ⟨r1, h1, h⟩ := except_bind_eq_ok.1 h
    cases r1 with
    | some ret =>
      obtain rfl := ok.inj h
      exact selectOnce_all (fun _ => id) h1
    | none => exact selectOnce_all (fun _ => id) h

/-- What a payment spends was on offer. -/
theorem createTransaction_subset {C : SendContext} {vecSend : List ℤ} {nTime fuel : ℕ}
    (h : createTransaction K V w C vecSend nTime [] fuel = .ok (some coins)) :
    ∀ out ∈ coins, out ∈ w.spendable K V := by
  have hloop : ∀ nValue fuel nFeeRet,
      createTransactionLoop K V w C nValue nTime [] fuel nFeeRet = .ok (some coins) →
        ∀ out ∈ coins, out ∈ w.spendable K V := by
    intro nValue fuel
    induction fuel with
    | zero =>
      intro nFeeRet h
      cases h
    | succ fuel ih =>
      intro nFeeRet h
      obtain ⟨r, hr, h⟩ := except_bind_eq_ok.1 h
      have hall := selectCoins_all hr
      cases r with
      | none => cases ok.inj h
      | some ret =>
        dsimp only at h
        split_ifs at h
        · cases ok.inj h
        · cases ok.inj h
        · exact ih _ h
        · obtain rfl := some.inj (ok.inj h)
          exact Selection.all_some.1 hall
  unfold createTransaction at h
  split_ifs at h
  · cases ok.inj h
  · cases hp : paymentTotal 0 vecSend with
    | none =>
      simp only [hp] at h
      cases ok.inj h
    | some nValue =>
      simp only [hp] at h
      exact hloop nValue fuel _ h

theorem takeForStaking_all (hP : ∀ out ∈ vCoins, P out)
    (hret : ∀ out ∈ ret.1, P out) : ∀ out ∈ (takeForStaking nTargetValue vCoins ret).1, P out := by
  induction vCoins generalizing ret with
  | nil => exact hret
  | cons out vCoins ih =>
    have hgrown := forall_mem_snoc hret (hP out mem_cons_self)
    rw [takeForStaking]
    split_ifs
    · exact hret
    · exact hgrown
    · exact ih (fun out' h => hP out' (mem_cons_of_mem _ h)) hgrown

variable {C : StakeContext}

theorem findKernel_mem {kernel : COutput} {n : ℕ} {nBlockTime : ℤ}
    {script : CScript} (h : findKernel C vCoins = some (kernel, n, nBlockTime, script)) :
    kernel ∈ vCoins := by
  induction vCoins with
  | nil => cases h
  | cons out vCoins ih =>
    rw [findKernel] at h
    cases hk : searchKernel C out.prevout 0 (min C.nSearchInterval 60).toNat with
    | none =>
      simp only [hk] at h
      exact mem_cons_of_mem _ (ih h)
    | some found =>
      cases hs : C.stakeScript out.txout.scriptPubKey with
      | none =>
        simp only [hk, hs] at h
        exact mem_cons_of_mem _ (ih h)
      | some script' =>
        simp only [hk, hs] at h
        rw [← (Prod.mk.inj (some.inj h)).1]
        exact mem_cons_self

theorem combineCoins_all {kernel : COutput} {script : CScript} {nTime : ℤ}
    (hP : ∀ out ∈ vCoins, P out) (hret : ∀ out ∈ ret.1, P out) :
    ∀ out ∈ (combineCoins V C kernel script nTime vCoins ret).1, P out := by
  induction vCoins generalizing ret with
  | nil => exact hret
  | cons out vCoins ih =>
    have hrest := fun out' h => hP out' (mem_cons_of_mem _ h)
    rw [combineCoins]
    split_ifs
    · exact hret
    · exact hret
    · exact hret
    · exact ih hrest hret
    · exact ih hrest hret
    · exact ih hrest (forall_mem_snoc hret (hP out mem_cons_self))
    · exact ih hrest hret

/-- What a coinstake spends was on offer for staking. -/
theorem createCoinStake_subset (h : createCoinStake K V w C = some coins) :
    ∀ out ∈ coins, out ∈ w.stakeable K V C.nTime := by
  have hset : ∀ out ∈ C.arrange (selectCoinsForStaking K V w (C.nBalance - C.nReserveBalance) C.nTime).1,
      out ∈ w.stakeable K V C.nTime := fun out hmem =>
    takeForStaking_all (fun _ => id) (fun _ h => absurd h not_mem_nil) out
      ((C.arrange_perm _).mem_iff.1 hmem)
  unfold createCoinStake at h
  generalize C.arrange _ = setCoins at h hset
  split_ifs at h
  cases hk : findKernel C setCoins with
  | none => simp only [hk, reduceCtorEq] at h
  | some found =>
    obtain ⟨kernel, n, nBlockTime, script⟩ := found
    have hkernel : ∀ out ∈ [kernel], out ∈ w.stakeable K V C.nTime := fun out hmem =>
      mem_singleton.1 hmem ▸ hset kernel (findKernel_mem hk)
    simp only [hk] at h
    split_ifs at h
    · obtain rfl := some.inj h
      exact hkernel
    · obtain rfl := some.inj h
      exact combineCoins_all hset hkernel

/-! ### What is on offer is spent -/

/-- The value of coins. -/
def totalValue (coins : List COutput) : ℤ := (coins.map COutput.nValue).sum

theorem totalValue_cons : totalValue (out :: coins) = out.nValue + totalValue coins := by
  rfl

section

variable (h : ∀ out ∈ coins, 0 ≤ out.nValue)
include h

theorem totalValue_nonneg : 0 ≤ totalValue coins := by
  induction coins with
  | nil => exact le_rfl
  | cons out coins ih =>
    have ho := h out mem_cons_self
    have hrest := ih fun out' h' => h out' (mem_cons_of_mem _ h')
    rw [totalValue_cons]
    omega

theorem totalValue_filter_le {p : COutput → Bool} :
    totalValue (coins.filter p) ≤ totalValue coins := by
  induction coins with
  | nil => exact le_rfl
  | cons out coins ih =>
    have ho := h out mem_cons_self
    have hle := ih fun out' h' => h out' (mem_cons_of_mem _ h')
    rw [filter_cons, totalValue_cons]
    split_ifs
    · rw [totalValue_cons]
      omega
    · omega

/-- A coin that is left out is missing in the value. -/
theorem totalValue_filter_add_le {p : COutput → Bool} (hout : out ∈ coins) (hp : p out = false) :
    totalValue (coins.filter p) + out.nValue ≤ totalValue coins := by
  induction coins with
  | nil => exact absurd hout not_mem_nil
  | cons x coins ih =>
    have hx := h x mem_cons_self
    have hrest := fun out' h' => h out' (mem_cons_of_mem _ h')
    rw [filter_cons, totalValue_cons]
    obtain rfl | hmem := mem_cons.1 hout
    · have hle := totalValue_filter_le (p := p) hrest
      rw [hp, if_neg Bool.false_ne_true]
      omega
    · have hadd := ih hrest hmem
      split_ifs
      · rw [totalValue_cons]
        omega
      · omega

theorem nValue_le_totalValue (hout : out ∈ coins) : out.nValue ≤ totalValue coins := by
  have hle := totalValue_filter_add_le (p := fun _ => false) h hout rfl
  have hnonneg : 0 ≤ totalValue (coins.filter fun _ => false) := totalValue_nonneg fun out' h' =>
    h out' (mem_of_mem_filter h')
  omega

end

/-- When no coin is worth more than the target, the loop ends at a coin of its value, or collects
all. -/
theorem collectCoins_le (hle : ∀ out ∈ vCoins, V.eligible nSpendTime nConfMine nConfTheirs out =
    true → out.nValue ≤ nTargetValue) (c : Collected) :
    (∃ out ∈ vCoins, V.eligible nSpendTime nConfMine nConfTheirs out = true ∧ out.nValue =
    nTargetValue ∧
      collectCoins V nTargetValue nSpendTime nConfMine nConfTheirs vCoins c = .inl out) ∨
    collectCoins V nTargetValue nSpendTime nConfMine nConfTheirs vCoins c = .inr
      ⟨c.coinLowestLarger, c.vValue ++ vCoins.filter (V.eligible nSpendTime nConfMine nConfTheirs),
        c.nTotalLower + totalValue
        (vCoins.filter (V.eligible nSpendTime nConfMine nConfTheirs))⟩ := by
  induction vCoins generalizing c with
  | nil =>
    right
    have hnil : totalValue [] = 0 := rfl
    rw [collectCoins, filter_nil, append_nil, hnil, add_zero]
  | cons out vCoins ih =>
    have hrest := fun out' h' => hle out' (mem_cons_of_mem _ h')
    rw [collectCoins, filter_cons]
    cases he : V.eligible nSpendTime nConfMine nConfTheirs out with
    | false =>
      obtain ⟨x, hx, hfound⟩ | hall := ih hrest c
      · exact .inl ⟨x, mem_cons_of_mem _ hx, hfound⟩
      · exact .inr hall
    | true =>
      have hcent : (0 : ℤ) < cent := by decide
      have hlt := hle out mem_cons_self he
      rw [if_neg (show ¬ (!true) = true from false_ne_true), if_pos rfl]
      by_cases heq : out.nValue = nTargetValue
      · exact .inl ⟨out, mem_cons_self, he, heq, if_pos heq⟩
      · rw [if_neg heq, if_pos (by omega)]
        obtain ⟨x, hx, hfound⟩ | hall := ih hrest
          { c with vValue := c.vValue ++ [out], nTotalLower := c.nTotalLower + out.nValue }
        · exact .inl ⟨x, mem_cons_of_mem _ hx, hfound⟩
        · right
          rw [hall, totalValue_cons, append_assoc, singleton_append, add_assoc]

theorem bind_congr_ok {ε α β : Type} {x : Except ε α} {a : α} {f : α → Except ε β} (h : x = .ok a) :
    (x >>= f) = f a := by
  rw [h]
  rfl

/-- No shuffling. -/
def Draws.plain : Draws := ⟨id, fun _ => .refl _, fun _ _ => false⟩

section Everything

variable {out : COutput} {E : List COutput}

/-- An attempt to spend all that is eligible fails, or spends a coin of value. -/
theorem selectOnce_everything (hE : vCoins.filter (V.eligible nSpendTime 0 1) = E)
    (hmono : ∀ x, V.eligible nSpendTime nConfMine nConfTheirs x = true →
    V.eligible nSpendTime 0 1 x = true) (hvalues : ∀ x ∈ E, 0 ≤ x.nValue) (hout : out ∈ E)
    (hpos : 0 < out.nValue) :
    (selectOnce V .plain false (totalValue E) nSpendTime nConfMine nConfTheirs vCoins = .ok none ∧
      totalValue (E.filter (V.eligible nSpendTime nConfMine nConfTheirs)) ≠ totalValue E) ∨
    ∃ ret, selectOnce V .plain false (totalValue E) nSpendTime nConfMine nConfTheirs vCoins =
      .ok (some ret) ∧ out ∈ ret.1 := by
  have hfilter : vCoins.filter (V.eligible nSpendTime nConfMine nConfTheirs) =
      E.filter (V.eligible nSpendTime nConfMine nConfTheirs) := by
    rw [← hE, filter_filter]
    refine filter_congr fun x _ => ?_
    cases hx : V.eligible nSpendTime nConfMine nConfTheirs x with
    | false => rfl
    | true => rw [hmono x hx]; rfl
  have hmem : ∀ x ∈ vCoins, V.eligible nSpendTime nConfMine nConfTheirs x = true → x ∈ E :=
    fun x hx he => by
    rw [← hE]
    exact mem_filter.2 ⟨hx, hmono x he⟩
  have hle := collectCoins_le (fun x hx he => nValue_le_totalValue hvalues (hmem x hx he))
    ⟨none, [], 0⟩
  have hplain : Draws.plain.shuffle vCoins = vCoins := rfl
  rw [selectOnce, if_neg Bool.false_ne_true, selectCoinsMinConf, hplain]
  obtain ⟨x, hx, he, heq, hfound⟩ | hall := hle
  · -- a coin that is worth everything is the only one of value
    have hsame : x = out := by
      by_contra hne
      have hadd := totalValue_filter_add_le (p := fun y => decide (y = x)) hvalues hout
        (decide_eq_false (Ne.symm hne))
      have hself : x.nValue ≤ totalValue (E.filter fun y => decide (y = x)) := nValue_le_totalValue
        (fun y hy => hvalues y (mem_of_mem_filter hy))
        (mem_filter.2 ⟨hmem x hx he, decide_eq_true rfl⟩)
      omega
    rw [hfound, hsame]
    exact .inr ⟨_, rfl, mem_singleton.2 rfl⟩
  · rw [hall, hfilter]
    dsimp only
    rw [nil_append, zero_add]
    have hle' := totalValue_filter_le (p := V.eligible nSpendTime nConfMine nConfTheirs) hvalues
    by_cases hfull : totalValue (E.filter (V.eligible nSpendTime nConfMine nConfTheirs)) =
      totalValue E
    · -- the coin is among them
      have hin : V.eligible nSpendTime nConfMine nConfTheirs out = true := by
        by_contra hp
        have hadd := totalValue_filter_add_le hvalues hout (Bool.eq_false_of_not_eq_true hp)
        omega
      rw [if_pos hfull]
      exact .inr ⟨_, rfl, mem_filter.2 ⟨hout, hin⟩⟩
    · rw [if_neg hfull, if_pos (by omega)]
      exact .inl ⟨rfl, hfull⟩

theorem eligible_mono (hle : 0 ≤ nConfMine) (hle' : 1 ≤ nConfTheirs) (x : COutput)
    (h : V.eligible nSpendTime nConfMine nConfTheirs x = true) :
    V.eligible nSpendTime 0 1 x = true := by
  unfold CoinView.eligible at h ⊢
  simp only [Bool.and_eq_true, Bool.not_eq_eq_eq_not, Bool.not_true, decide_eq_false_iff_not] at h ⊢
  have hdepth := h.1
  split_ifs at hdepth ⊢
  · omega
  · omega

/-- A payment without fee, drawn without shuffling. -/
def freeSending : SendContext where
  nTransactionFee := 0
  maxStandardTxSize := 1
  signs _ _ := true
  nBytes _ _ := 0
  getMinFee _ := 0
  draws _ _ := .plain
  fMinimizeCoinAge := false

/-- Every coin is a kernel, and one comes first. -/
def easyStaking (out : COutput) (nBalance : ℤ) (nTime : ℕ) : StakeContext where
  nBalance := nBalance
  nReserveBalance := 0
  nTime := nTime
  nSearchInterval := 1
  checkKernel _ _ := some 0
  stakeScript := some
  arrange l := if out ∈ l then out :: l.erase out else l
  arrange_perm l := by
    split_ifs with h
    · exact (perm_cons_erase h).symm
    · exact .refl _
  nStakeSplitAge := 0
  nStakeSplitThreshold := 0
  nStakeCombineThreshold := 0

/-- **A coin of value that is on offer is spent by some payment.** -/
theorem createTransaction_spends (hvalues : ∀ x ∈ w.spendable K V, 0 ≤ x.nValue)
    (hout : out ∈ w.spendable K V) (hdepth : V.eligible nSpendTime 0 1 out = true)
    (hpos : 0 < out.nValue) : ∃ C vecSend fuel coins, createTransaction K V w C vecSend nSpendTime
    [] fuel = .ok (some coins) ∧ out ∈ coins := by
  -- the payment of all that is eligible
  obtain ⟨E, hE⟩ : ∃ E, (w.spendable K V).filter (V.eligible nSpendTime 0 1) = E := ⟨_, rfl⟩
  have hmemE : out ∈ E := hE ▸ mem_filter.2 ⟨hout, hdepth⟩
  have hvaluesE : ∀ x ∈ E, 0 ≤ x.nValue := fun x hx => hvalues x (mem_of_mem_filter (hE ▸ hx))
  have hattempt : ∀ nConfMine nConfTheirs : ℤ, 0 ≤ nConfMine → 1 ≤ nConfTheirs → _ :=
    fun a b ha hb =>
    selectOnce_everything hE (eligible_mono ha hb) hvaluesE hmemE hpos
  have hselect : ∃ ret, selectCoins K V w (fun _ => .plain) false (totalValue E) nSpendTime [] =
      .ok (some ret) ∧ out ∈ ret.1 := by
    obtain ⟨h0, -⟩ | ⟨ret, h0, hret⟩ := hattempt 1 10 (by decide) (by decide)
    · obtain ⟨h1, -⟩ | ⟨ret, h1, hret⟩ := hattempt 1 1 (by decide) (by decide)
      · obtain ⟨h2, hne⟩ | ⟨ret, h2, hret⟩ := hattempt 0 1 (by decide) (by decide)
        · refine absurd ?_ hne
          rw [← hE, filter_filter]
          simp only [Bool.and_self]
        · exact ⟨ret, (bind_congr_ok h0).trans ((bind_congr_ok h1).trans h2), hret⟩
      · exact ⟨ret, (bind_congr_ok h0).trans ((bind_congr_ok h1).trans rfl), hret⟩
    · exact ⟨ret, (bind_congr_ok h0).trans rfl, hret⟩
  obtain ⟨ret, hret, hin⟩ := hselect
  have htotal : paymentTotal 0 [totalValue E] = some (totalValue E) := by
    have hnonneg := totalValue_nonneg hvaluesE
    rw [paymentTotal, if_neg (lt_irrefl 0), paymentTotal, zero_add, if_neg hnonneg.not_gt]
  refine ⟨freeSending, [totalValue E], 1, ret.1, ?_, hin⟩
  rw [createTransaction, if_neg (show ¬ [totalValue E].isEmpty = true from false_ne_true), htotal]
  dsimp only
  have hvalue : totalValue E + freeSending.nTransactionFee = totalValue E := add_zero _
  rw [createTransactionLoop, hvalue]
  refine (bind_congr_ok hret).trans ?_
  simp [freeSending]

/-- **A coin of value that is on offer for staking is spent by some coinstake.** -/
theorem createCoinStake_spends (hvalues : ∀ x ∈ w.stakeable K V nSpendTime, 0 ≤ x.nValue)
    (hout : out ∈ w.stakeable K V nSpendTime) (hpos : 0 < out.nValue) :
    ∃ C coins, C.nTime = nSpendTime ∧ createCoinStake K V w C = some coins ∧ out ∈ coins := by
  obtain ⟨L, hL⟩ : ∃ L, w.stakeable K V nSpendTime = L := ⟨_, rfl⟩
  rw [hL] at hvalues hout
  -- all coins are taken when the target is larger than their value
  have htake : ∀ l ret, (∀ x ∈ l, 0 ≤ x.nValue) → ret.2 + totalValue l < totalValue L + 1 →
    0 ≤ ret.2 → (takeForStaking (totalValue L + 1) l ret).1 = ret.1 ++ l := by
    intro l
    induction l with
    | nil => exact fun ret _ _ _ => (append_nil _).symm
    | cons x l ih =>
      intro ret hl hlt hret
      have hx := hl x mem_cons_self
      have hrest := totalValue_nonneg fun y hy => hl y (mem_cons_of_mem _ hy)
      rw [totalValue_cons] at hlt
      rw [takeForStaking, if_neg (by omega), if_neg (by omega),
        ih _ (fun y hy => hl y (mem_cons_of_mem _ hy)) (by dsimp only; omega)
        (by dsimp only; omega), append_assoc, singleton_append]
  have hset : (selectCoinsForStaking K V w (totalValue L + 1) nSpendTime).1 = L := by
    change (takeForStaking _ (w.stakeable K V nSpendTime) _).1 = L
    rw [hL, htake L ([], 0) hvalues (by dsimp only; omega) le_rfl, nil_append]
  have hle := nValue_le_totalValue hvalues hout
  refine ⟨easyStaking out (totalValue L + 1) nSpendTime, [out], rfl, ?_, mem_singleton.2 rfl⟩
  have harrange : (easyStaking out (totalValue L + 1) nSpendTime).arrange L = out :: L.erase out :=
    if_pos hout
  have hbalance : (easyStaking out (totalValue L + 1) nSpendTime).nBalance -
      (easyStaking out (totalValue L + 1) nSpendTime).nReserveBalance = totalValue L + 1 :=
      sub_zero _
  have htime : (easyStaking out (totalValue L + 1) nSpendTime).nTime = nSpendTime := rfl
  rw [createCoinStake, if_neg (by change ¬ totalValue L + 1 ≤ 0; omega)]
  dsimp only
  rw [hbalance, htime, hset, harrange]
  have hkernel : findKernel (easyStaking out (totalValue L + 1) nSpendTime) (out :: L.erase out) =
      some (out, 0, 0, out.txout.scriptPubKey) := rfl
  rw [hkernel]
  dsimp only
  rw [if_neg (by omega), if_pos (.inr hpos)]

end Everything

/-! ### Locking coins -/

/-- The commands that change `setLockedCoins`. -/
inductive LockStep where
  | lockCoin (output : COutPoint)
  | unlockCoin (output : COutPoint)
  | unlockAllCoins

/-- A command changes `setLockedCoins`. -/
def lockStep (setLockedCoins : Finset COutPoint) : LockStep → Finset COutPoint
  | .lockCoin output => insert output setLockedCoins
  | .unlockCoin output => setLockedCoins.erase output
  | .unlockAllCoins => ∅

/-- `setLockedCoins` after some commands. -/
def lockedCoins (steps : List LockStep) : Finset COutPoint := steps.foldl lockStep ∅

/-- **Whatever was locked and unlocked: while no locked coin is on offer, no payment and no
coinstake spends one.**  A locked coin of value that is on offer is spent by some payment, and one
that is on offer for staking by some coinstake. -/
theorem lockedCoins_unspent (K : Keystore) (V : CoinView) (w : Wallet) (steps : List LockStep) :
    ((∀ out ∈ w.spendable K V, out.prevout ∉ lockedCoins steps) →
      ∀ C vecSend nTime fuel coins, createTransaction K V w C vecSend nTime [] fuel =
      .ok (some coins) → ∀ out ∈ coins, out.prevout ∉ lockedCoins steps) ∧
    (∀ nTime, (∀ out ∈ w.stakeable K V nTime, out.prevout ∉ lockedCoins steps) →
      ∀ C coins, C.nTime = nTime → createCoinStake K V w C = some coins →
        ∀ out ∈ coins, out.prevout ∉ lockedCoins steps) ∧
    ((∀ x ∈ w.spendable K V, 0 ≤ x.nValue) → ∀ nTime, ∀ out ∈ w.spendable K V,
      V.eligible nTime 0 1 out = true → 0 < out.nValue → out.prevout ∈ lockedCoins steps →
        ∃ C vecSend fuel coins, createTransaction K V w C vecSend nTime [] fuel = .ok (some coins) ∧
          ∃ out ∈ coins, out.prevout ∈ lockedCoins steps) ∧
    ∀ nTime, (∀ x ∈ w.stakeable K V nTime, 0 ≤ x.nValue) → ∀ out ∈ w.stakeable K V nTime,
      0 < out.nValue → out.prevout ∈ lockedCoins steps →
        ∃ C coins, C.nTime = nTime ∧ createCoinStake K V w C = some coins ∧
          ∃ out ∈ coins, out.prevout ∈ lockedCoins steps := by
  refine ⟨?_, ?_, ?_, ?_⟩
  · intro hcond C vecSend nTime fuel coins h out hout
    exact hcond out (createTransaction_subset h out hout)
  · rintro nTime hcond C coins rfl h out hout
    exact hcond out (createCoinStake_subset h out hout)
  · intro hvalues nTime out hout hdepth hpos hlocked
    obtain ⟨C, vecSend, fuel, coins, h, hin⟩ := createTransaction_spends hvalues hout hdepth hpos
    exact ⟨C, vecSend, fuel, coins, h, out, hin, hlocked⟩
  · intro nTime hvalues out hout hpos hlocked
    obtain ⟨C, coins, htime, h, hin⟩ := createCoinStake_spends hvalues hout hpos
    exact ⟨C, coins, htime, h, out, hin, hlocked⟩

/-- A confirmed payment of 1000 coins. -/
def collateralTx : CWalletTx :=
  .ofTx ⟨1, 0, [⟨⟨9, 0⟩, [], 0⟩], [⟨1000 * coin, []⟩], 0⟩

/-- A wallet with nothing else. -/
def collateralWallet : Wallet := ⟨AList.singleton 1 collateralTx⟩

/-- Every script is the wallet's own. -/
def anyKeystore : Keystore := ⟨fun _ => true, 0⟩

/-- Everything is final and deep enough. -/
def deepView : CoinView where
  isFinalTx _ := true
  isTrusted _ := true
  isFromMe _ := false
  depthInMainChain _ := 1000
  nCoinbaseMaturity := 10
  isProtocolV3 _ := true
  nStakeMinConfirmations := 10
  nStakeMinAge := 0
  coinWeightCost _ _ := 0

/-- The coin of the wallet. -/
def collateral : COutput := ⟨collateralTx, 1, 0, 1000⟩

/-- A payment of 1000 coins and a coinstake each spend the only coin of the wallet, which is
locked. -/
theorem lockedCoin_spent : collateral.prevout ∈ lockedCoins [.lockCoin ⟨1, 0⟩] ∧
    createTransaction anyKeystore deepView collateralWallet freeSending [1000 * coin] 0 [] 1 =
      .ok (some [collateral]) ∧
    createCoinStake anyKeystore deepView collateralWallet (easyStaking collateral (2000 * coin) 0) =
      some [collateral] := by
  decide

end Espers
