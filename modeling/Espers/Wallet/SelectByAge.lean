import Espers.Wallet.CoinAge

/-!
# Coin selection by coin age

What is traced back is worth the target, however the values are truncated; so
`SelectCoinsMinConfByCoinAge` meets the contract of a selection as long as its integers do.

* `traceBack_reaches` : what is left out of a solution fits the columns of the matrix.
* `Affords.solveByAge` : **coins that are worth the target** are enough for it.
* `selectByAge_contract_iff` : **the contract holds exactly if** no larger coin is too dear to be
  taken, and none is taken for a target that overflows with a cent.
-/

namespace Espers

open Exec List Nat Except

section

variable {V : CoinView} {coins small : List COutput} {items : List Item} {s : Bundles} {denom : ℤ}
  {out : COutput}

/-! ### What is picked -/

/-- The coins that were picked have the value that is said, and those that are left can still be
picked. -/
structure Pickable (whole : List COutput) (r : List COutput × ℤ) (left : List COutput) : Prop where
  value : r.2 = totalValue r.1
  subperm : (r.1 ++ left).Subperm whole

variable {whole left rest : List COutput} {r : List COutput × ℤ} {item : Item}
  {nTargetValue nTotalValue : ℤ}

theorem Pickable.pick (h : Pickable whole r (coins ++ left)) {value : ℤ}
    (hvalue : value = totalValue coins) :
    Pickable whole (r.1 ++ coins, r.2 + value) left where
  value := by rw [totalValue_append, ← h.value, hvalue]
  subperm := by
    rw [append_assoc]
    exact h.subperm

theorem Pickable.perm {left' : List COutput} (h : Pickable whole r left) (hperm : left.Perm left') :
    Pickable whole r left' where
  value := h.value
  subperm := (hperm.symm.append_left r.1).subperm.trans h.subperm

theorem Pickable.skip (h : Pickable whole r (coins ++ left)) : Pickable whole r left where
  value := h.value
  subperm := ((sublist_append_right coins left).append_left r.1).subperm.trans h.subperm

/-- The value of an item is that of its coins, of which there is at least one. -/
structure Item.Whole (item : Item) : Prop where
  value : item.value = totalValue item.coins
  nonempty : item.coins ≠ []

theorem Pickable.traceBack {items : List Item} (denom : ℤ) (nPrev : ℕ) {r : List COutput × ℤ}
    (h : Pickable whole r (items.flatMap Item.coins ++ rest)) (hwhole : ∀ item ∈ items, item.Whole) :
    Pickable whole (Espers.traceBack denom items nPrev r) rest := by
  induction items generalizing nPrev r with
  | nil => exact h
  | cons item items ih =>
    obtain ⟨hitem, hitems⟩ := forall_mem_cons.1 hwhole
    rw [flatMap_cons, append_assoc] at h
    rw [Espers.traceBack]
    split_ifs
    · exact ih _ (h.pick hitem.value) hitems
    · exact ih _ h.skip hitems

theorem Pickable.prepick {items : List Item} (nTargetValue denom nTotalValue : ℤ)
    {r : List COutput × ℤ} (h : Pickable whole r (items.flatMap Item.coins ++ rest))
    (hwhole : ∀ item ∈ items, item.Whole) :
    Pickable whole (Espers.prepick nTargetValue denom items nTotalValue r).2.2
      ((Espers.prepick nTargetValue denom items nTotalValue r).1.flatMap Item.coins ++ rest) := by
  induction items generalizing nTotalValue r with
  | nil => exact h
  | cons item items ih =>
    obtain ⟨hitem, hitems⟩ := forall_mem_cons.1 hwhole
    rw [Espers.prepick]
    split_ifs
    · rw [flatMap_cons, append_assoc] at h
      exact ih _ (h.pick hitem.value) hitems
    · exact h

theorem Pickable.addLeftOver {rest : List COutput} {r : List COutput × ℤ}
    (h : Pickable whole r rest) :
    Pickable whole (Espers.addLeftOver nTargetValue rest r) [] ∧
      (nTargetValue ≤ r.2 + totalValue rest →
        nTargetValue ≤ (Espers.addLeftOver nTargetValue rest r).2) := by
  induction rest generalizing r with
  | nil => exact ⟨h, fun hle => hle.trans (add_zero r.2).le⟩
  | cons out rest ih =>
    rw [Espers.addLeftOver]
    split_ifs with hless
    · have hpick := @Pickable.pick [out] whole rest r h out.nValue totalValue_singleton.symm
      obtain ⟨hrest, hreach⟩ := ih hpick
      refine ⟨hrest, fun hle => hreach ?_⟩
      rw [totalValue_cons, ← add_assoc] at hle
      exact hle
    · refine ⟨?_, fun _ => Int.not_lt.1 hless⟩
      rw [← append_nil (out :: rest)] at h
      exact h.skip

/-! ### What is reached -/

/-- The normalized value of the items. -/
def weights (denom : ℤ) (items : List Item) : ℤ :=
  (items.map fun item => item.value.tdiv denom).sum

/-- The value of the items. -/
def values (items : List Item) : ℤ := (items.map Item.value).sum

theorem weights_cons (denom : ℤ) (item : Item) (items : List Item) :
    weights denom (item :: items) = item.value.tdiv denom + weights denom items := rfl

theorem values_cons (item : Item) (items : List Item) :
    values (item :: items) = item.value + values items := rfl

theorem Item.Fits.weight_cast (h : item.Fits) (hdenom : 0 < denom) :
    (item.weight denom : ℤ) = item.value.tdiv denom :=
  Int.toNat_of_nonneg (Int.tdiv_nonneg h.1 hdenom.le)

theorem Item.Fits.mul_weight_le (h : item.Fits) : denom * item.value.tdiv denom ≤ item.value := by
  have hsplit := Int.mul_tdiv_add_tmod item.value denom
  have hrest := Int.tmod_nonneg denom h.1
  omega

theorem mul_weights_le (denom : ℤ) (hfits : ∀ item ∈ items, item.Fits) :
    denom * weights denom items ≤ values items := by
  induction items with
  | nil => exact (mul_zero denom).le
  | cons item items ih =>
    obtain ⟨hitem, hitems⟩ := forall_mem_cons.1 hfits
    rw [weights_cons, values_cons, mul_add]
    exact add_le_add hitem.mul_weight_le (ih hitems)

theorem before_cases (denom : ℤ) (item : Item) (items : List Item) (j : ℕ) :
    before denom item items j = j ∨
      before denom item items j ≠ j ∧ before denom item items j + item.weight denom = j := by
  rw [before]
  split_ifs with h
  · by_cases hzero : j - item.weight denom = j
    · exact .inl hzero
    · exact .inr ⟨hzero, Nat.sub_add_cancel h.1⟩
  · exact .inl rfl

/-- **What is traced back is worth the target**, if it is when only the columns are left out. -/
theorem traceBack_reaches (hdenom : 0 < denom) (hfits : ∀ item ∈ items, item.Fits) {nPrev : ℕ}
    {r : List COutput × ℤ} (h : nTargetValue ≤ r.2 + denom * (weights denom items - nPrev)) :
    nTargetValue ≤ (Espers.traceBack denom items nPrev r).2 := by
  induction items generalizing nPrev r with
  | nil =>
    have hneg : denom * (weights denom [] - nPrev) ≤ 0 := by
      refine mul_nonpos_of_nonneg_of_nonpos hdenom.le ?_
      rw [weights, map_nil, sum_nil]
      omega
    exact h.trans (add_le_of_nonpos_right hneg)
  | cons item items ih =>
    obtain ⟨hitem, hitems⟩ := forall_mem_cons.1 hfits
    rw [weights_cons, add_sub_assoc, mul_add] at h
    rw [Espers.traceBack]
    obtain hpick | ⟨hskip, hweight⟩ := before_cases denom item items nPrev
    · rw [if_pos hpick.symm, hpick]
      refine ih hitems (h.trans ?_)
      have hle := @Item.Fits.mul_weight_le denom item hitem
      omega
    · rw [if_neg (Ne.symm hskip)]
      refine ih hitems (h.trans_eq ?_)
      have hcast := hitem.weight_cast hdenom
      have hleft : item.value.tdiv denom + (weights denom items - nPrev)
          = weights denom items - before denom item items nPrev := by omega
      rw [← mul_add, hleft]

/-- What the loop that picks the first items leaves. -/
theorem prepick_spec (nTargetValue : ℤ) (items : List Item) (r : List COutput × ℤ)
    {left : List Item} {n : ℤ} {r' : List COutput × ℤ}
    (h : Espers.prepick nTargetValue denom items (weights denom items) r = (left, n, r')) :
    n = weights denom left ∧ r'.2 + values left = r.2 + values items ∧
      (left = [] ∨ (nTargetValue - r'.2).tdiv denom < n) := by
  induction items generalizing r with
  | nil =>
    cases h
    exact ⟨rfl, rfl, .inl rfl⟩
  | cons item items ih =>
    rw [Espers.prepick] at h
    split_ifs at h with hmore
    · rw [weights_cons, add_sub_cancel_left] at h
      obtain ⟨hn, htotal, hend⟩ := ih _ h
      refine ⟨hn, htotal.trans ?_, hend⟩
      rw [values_cons, ← add_assoc]
    · cases h
      exact ⟨rfl, rfl, .inr (Int.not_le.1 hmore)⟩

/-- The number of columns: there is one, there are not many, and to leave them out is to leave the
target. -/
theorem exists_size2 (hdenom : 0 < denom) (hfits : ∀ item ∈ items, item.Fits) {x total : ℤ}
    (hless : x.tdiv denom < weights denom items) (htotal : values items ≤ total)
    (hunit : total - x < 50 * denom) :
    ∃ size2 : ℕ, weights denom items - x.tdiv denom + (if x.tmod denom ≠ 0 then 0 else 1) = size2 ∧
      0 < size2 ∧ size2 < 2 ^ 32 ∧
      x ≤ denom * (weights denom items - (size2 - 1 : ℕ)) := by
  have hsplit := Int.mul_tdiv_add_tmod x denom
  have hmod := Int.tmod_lt_of_pos x hdenom
  have hvalue := mul_weights_le denom hfits
  generalize x.tdiv denom = q at *
  generalize x.tmod denom = m at *
  generalize weights denom items = n at *
  have hfew : n - q < 51 := by
    refine lt_of_mul_lt_mul_left (a := denom) ?_ hdenom.le
    rw [mul_sub]
    omega
  obtain ⟨size2, hsize2⟩ := Int.eq_ofNat_of_zero_le
    (show 0 ≤ n - q + (if m ≠ 0 then 0 else 1) by split_ifs <;> omega)
  have hpos : 0 < size2 := by
    split_ifs at hsize2 <;> omega
  refine ⟨size2, hsize2, hpos, ?_, ?_⟩
  · split_ifs at hsize2 <;> omega
  · have hprev : n - ((size2 - 1 : ℕ) : ℤ) = q + (if m ≠ 0 then 1 else 0) := by
      split_ifs at hsize2 ⊢ <;> omega
    rw [hprev, mul_add]
    split_ifs with hm
    · omega
    · rw [not_not] at hm
      omega

/-! ### The items -/

theorem values_eq (hwhole : ∀ item ∈ items, item.Whole) :
    values items = totalValue (items.flatMap Item.coins) := by
  induction items with
  | nil => rfl
  | cons item items ih =>
    obtain ⟨hitem, hitems⟩ := forall_mem_cons.1 hwhole
    rw [values_cons, flatMap_cons, totalValue_append, hitem.value, ih hitems]

theorem length_le_flatMap (hwhole : ∀ item ∈ items, item.Whole) :
    items.length ≤ (items.flatMap Item.coins).length := by
  induction items with
  | nil => exact le_rfl
  | cons item items ih =>
    obtain ⟨hitem, hitems⟩ := forall_mem_cons.1 hwhole
    have hpos := length_pos_iff.2 hitem.nonempty
    have hrest := ih hitems
    rw [flatMap_cons, length_append, length_cons]
    omega

theorem Item.Whole.fits (h : item.Whole) (hmem : item ∈ items)
    (hsub : (items.flatMap Item.coins).Subperm whole) (hnonneg : ∀ out ∈ whole, 0 ≤ out.nValue)
    (htotal : totalValue whole < 2 ^ 63) : item.Fits := by
  have hcoins : item.coins.Subperm whole :=
    (sublist_flatten_of_mem (mem_map_of_mem hmem)).subperm.trans hsub
  rw [Item.Fits, h.value]
  refine ⟨?_, (totalValue_subperm hcoins hnonneg).trans_lt htotal⟩
  exact totalValue_subperm (nil_subperm) fun out hout => hnonneg out (hcoins.subset hout)

theorem CoinView.single_whole (V : CoinView) (out : COutput) : (V.single out).Whole where
  value := totalValue_singleton.symm
  nonempty := cons_ne_nil _ _

theorem flatMap_single (V : CoinView) (coins : List COutput) :
    (coins.map V.single).flatMap Item.coins = coins := by
  induction coins with
  | nil => rfl
  | cons out coins ih =>
    rw [map_cons, flatMap_cons, ih]
    rfl

/-- The bundles take all small coins in order, up to less than the unit. -/
theorem bundle_spec (hdenom : 0 < denom) {pBundle : Item}
    (hvalue : pBundle.value = totalValue pBundle.coins) (hless : pBundle.value < denom) :
    (∀ item ∈ (bundle V denom pBundle small).1, item.Whole) ∧
      (bundle V denom pBundle small).1.flatMap Item.coins ++ (bundle V denom pBundle small).2
        = pBundle.coins ++ small ∧
      totalValue (bundle V denom pBundle small).2 < denom := by
  induction small generalizing pBundle with
  | nil =>
    rw [hvalue] at hless
    exact ⟨fun item hitem => absurd hitem not_mem_nil, (append_nil _).symm, hless⟩
  | cons out small ih =>
    rw [bundle]
    have hpush : pBundle.value + out.nValue = totalValue (pBundle.coins ++ [out]) := by
      rw [totalValue_append, totalValue_singleton, hvalue]
    split_ifs with hfull
    · obtain ⟨hwhole, hcoins, hrest⟩ := @ih ⟨0, 0, []⟩ rfl hdenom
      refine ⟨forall_mem_cons.2 ⟨⟨hpush, ?_⟩, hwhole⟩, ?_, hrest⟩
      · exact append_ne_nil_of_right_ne_nil _ (cons_ne_nil _ _)
      · rw [flatMap_cons, append_assoc, hcoins]
        exact append_assoc _ _ _
    · obtain ⟨hwhole, hcoins, hrest⟩ := ih hpush (Int.not_le.1 hfull)
      refine ⟨hwhole, ?_, hrest⟩
      exact hcoins.trans (append_assoc _ _ _)

theorem bundled_whole (V : CoinView) (hdenom : 0 < denom) (coins : List COutput) :
    ∀ item ∈ V.bundled denom coins, item.Whole := by
  intro item hitem
  obtain hsingle | hbundle := mem_append.1 hitem
  · obtain ⟨out, -, rfl⟩ := mem_map.1 hsingle
    exact V.single_whole out
  · exact (@bundle_spec V _ denom hdenom ⟨0, 0, []⟩ rfl hdenom).1 item hbundle

theorem bundled_perm (V : CoinView) (hdenom : 0 < denom) (coins : List COutput) :
    ((V.bundled denom coins).flatMap Item.coins ++ V.unbundled denom coins).Perm coins := by
  rw [CoinView.bundled, CoinView.unbundled, flatMap_append, append_assoc,
    (@bundle_spec V _ denom hdenom ⟨0, 0, []⟩ rfl hdenom).2.1, flatMap_single]
  exact filter_append_perm _ _

/-! ### The dynamic programming -/

/-- Coins that are worth the target, and not too many. -/
structure Affords (whole : List COutput) (nTargetValue : ℤ) : Prop where
  target : 0 < nTargetValue
  nonneg : ∀ out ∈ whole, 0 ≤ out.nValue
  total : totalValue whole < 2 ^ 63
  reached : nTargetValue ≤ totalValue whole
  length : whole.length + 1 < 2 ^ 32

/-- What the dynamic programming starts from. -/
structure Packed (V : CoinView) (whole : List COutput) (nTargetValue denom : ℤ) (s : Bundles)
    (items : List Item) (rest : List COutput) : Prop where
  laid : s.Laid items
  leftOver : s.leftOver = rest.map V.costCoin
  item_whole : ∀ item ∈ items, item.Whole
  perm : (items.flatMap Item.coins ++ rest).Perm whole
  rest_lt : totalValue rest < denom
  affords : Affords whole nTargetValue
  denom_pos : 0 < denom
  unit : totalValue whole - nTargetValue < 50 * denom

section

variable (h : Packed V whole nTargetValue denom s items rest)
include h

theorem Packed.fits : ∀ item ∈ items, item.Fits := fun item hitem =>
  (h.item_whole item hitem).fits hitem
    ((sublist_append_left _ _).subperm.trans h.perm.subperm) h.affords.nonneg h.affords.total

theorem Packed.values_add : values items + totalValue rest = totalValue whole := by
  rw [values_eq h.item_whole, ← totalValue_append, totalValue_perm h.perm]

theorem Packed.rows : items.length + 1 < 2 ^ 32 := by
  have hitems := length_le_flatMap h.item_whole
  have hwhole := h.perm.length_eq
  have hlength := h.affords.length
  rw [length_append] at hwhole
  omega

/-- **The dynamic programming reaches the target**, after any items were picked. -/
theorem Packed.solve {n : ℕ}
    (hn : n ≤ items.length) (hr : Pickable whole r ((items.drop n).flatMap Item.coins ++ rest))
    (hsum : r.2 + values (items.drop n) = values items) (hless : r.2 < nTargetValue)
    (hmore : items.drop n = [] ∨ (nTargetValue - r.2).tdiv denom < weights denom (items.drop n)) :
    ∃ r', s.solve nTargetValue denom n (weights denom (items.drop n)) (asSet r) = .ok (selectedOf r') ∧
      Pickable whole r' [] ∧ nTargetValue ≤ r'.2 := by
  have hvalues := h.values_add
  have hreached := h.affords.reached
  have hdenom := h.denom_pos
  obtain hnil | hmore := hmore
  · -- all items were picked, and what is left over is needed
    have hlength : items.length = n := le_antisymm (drop_eq_nil_iff.1 hnil) hn
    rw [hnil] at hsum hr ⊢
    have hle : nTargetValue - r.2 ≤ totalValue rest := by
      have hzero : values [] = 0 := rfl
      omega
    have hlt := hle.trans_lt h.rest_lt
    have hquot : (nTargetValue - r.2).tdiv denom = 0 := Int.tdiv_eq_zero_of_lt (by omega) hlt
    have hmod : (nTargetValue - r.2).tmod denom = nTargetValue - r.2 :=
      Int.tmod_eq_of_lt (by omega) hlt
    have hsize2 : weights denom [] - (nTargetValue - r.2).tdiv denom +
        (if (nTargetValue - r.2).tmod denom ≠ 0 then 0 else 1) = (0 : ℕ) := by
      rw [hquot, hmod, if_pos (by omega)]
      rfl
    have hsolve := h.laid.solve h.leftOver hdenom h.fits h.rows hn hsize2 (.inl hlength) (by decide)
    rw [hnil] at hsolve
    obtain ⟨hholding, hreach⟩ := @Pickable.addLeftOver whole nTargetValue rest r hr
    exact ⟨_, hsolve, hholding, hreach (by omega)⟩
  · have hleft : ∀ item ∈ items.drop n, item.Fits := fun item hitem =>
      h.fits item (mem_of_mem_drop hitem)
    have hwhole : ∀ item ∈ items.drop n, item.Whole := fun item hitem =>
      h.item_whole item (mem_of_mem_drop hitem)
    have htotal : values (items.drop n) ≤ totalValue whole - r.2 := by
      have hnonneg : 0 ≤ totalValue rest := by
        refine totalValue_subperm nil_subperm fun out hout => h.affords.nonneg out ?_
        exact h.perm.mem_iff.1 (mem_append_right _ hout)
      omega
    obtain ⟨size2, hsize2, hpos, hsmall, hx⟩ := exists_size2 hdenom hleft hmore htotal
      (by have := h.unit; omega)
    have hsolve := h.laid.solve h.leftOver hdenom h.fits h.rows hn hsize2 (.inr hpos) hsmall
    have hreverse : weights denom (items.drop n).reverse = weights denom (items.drop n) := by
      rw [weights, map_reverse, sum_reverse]
      rfl
    have htrace : nTargetValue ≤
        (Espers.traceBack denom (items.drop n).reverse (size2 - 1) r).2 := by
      refine traceBack_reaches hdenom (fun item hitem => hleft item (mem_reverse.1 hitem)) ?_
      rw [hreverse]
      omega
    rw [addLeftOver_of_le htrace] at hsolve
    refine ⟨_, hsolve, ?_, htrace⟩
    have hperm : Pickable whole r ((items.drop n).reverse.flatMap Item.coins ++ rest) :=
      hr.perm (((reverse_perm _).symm.flatMap_right _).append_right rest)
    have htraced := hperm.traceBack denom (size2 - 1) fun item hitem =>
      hwhole item (mem_reverse.1 hitem)
    rw [← append_nil rest] at htraced
    exact htraced.skip

end

/-! ### The unit -/

/-- The greatest common divisor of the values, and another number. -/
def gcdFrom (coins : List COutput) (g : ℤ) : ℤ :=
  coins.foldl (fun g out => (Int.gcd out.nValue g : ℤ)) g

theorem gcdFrom_spec (coins : List COutput) {g : ℤ} (hg : 0 ≤ g) :
    0 ≤ gcdFrom coins g ∧ gcdFrom coins g ∣ g ∧ ∀ out ∈ coins, gcdFrom coins g ∣ out.nValue := by
  induction coins generalizing g with
  | nil => exact ⟨hg, dvd_rfl, fun out hout => absurd hout not_mem_nil⟩
  | cons out coins ih =>
    obtain ⟨hnonneg, hdvd, hall⟩ := @ih (Int.gcd out.nValue g) (Int.natCast_nonneg _)
    refine ⟨hnonneg, hdvd.trans (Int.gcd_dvd_right _ _), ?_⟩
    exact forall_mem_cons.2 ⟨hdvd.trans (Int.gcd_dvd_left _ _), hall⟩

theorem foldl_gcdAndTotal (V : CoinView) {coins : List COutput}
    (hnonneg : ∀ out ∈ coins, 0 ≤ out.nValue) {g n : ℤ} (hg : 0 ≤ g) :
    (coins.map V.costCoin).foldl (fun s e => (int64Gcd e.value s.1, s.2 + e.value)) (g, n)
      = (gcdFrom coins g, n + totalValue coins) := by
  induction coins generalizing g n with
  | nil =>
    rw [totalValue, map_nil, map_nil, sum_nil, add_zero]
    rfl
  | cons out coins ih =>
    obtain ⟨hout, hcoins⟩ := forall_mem_cons.1 hnonneg
    have hgcd : int64Gcd (V.costCoin out).value g = Int.gcd out.nValue g := int64Gcd_eq hout hg
    rw [map_cons, foldl_cons, hgcd, totalValue_cons, ← add_assoc]
    exact ih hcoins (Int.natCast_nonneg _)

theorem gcdAndTotal_eq (V : CoinView) {out : COutput} {coins : List COutput}
    (hnonneg : ∀ out' ∈ out :: coins, 0 ≤ out'.nValue) (hpos : 0 < nTargetValue) :
    gcdAndTotal nTargetValue (V.costCoin out) (coins.map V.costCoin)
      = ((Int.gcd nTargetValue (gcdFrom (out :: coins) 0) : ℤ), totalValue (out :: coins)) := by
  obtain ⟨hout, hcoins⟩ := forall_mem_cons.1 hnonneg
  have hfirst : (Int.gcd out.nValue 0 : ℤ) = out.nValue := by
    rw [Int.gcd_zero_right, Int.natCast_natAbs, abs_of_nonneg hout]
  have hgcd : gcdFrom (out :: coins) 0 = gcdFrom coins out.nValue := by
    rw [gcdFrom, foldl_cons, hfirst]
    rfl
  rw [gcdAndTotal]
  dsimp only [CoinView.costCoin]
  rw [foldl_gcdAndTotal V hcoins hout, hgcd, int64Gcd_eq hpos.le (gcdFrom_spec coins hout).1,
    totalValue_cons]

theorem unit64_spec {n : ℕ} (hn : 0 < n) {nTotalValue nGCD : ℤ} (hgcd : 0 < nGCD)
    (hle : nTargetValue ≤ nTotalValue) (hproduct : n * (nTotalValue - nTargetValue) < 2 ^ 63) :
    0 < unit64 n nTotalValue nTargetValue nGCD ∧
      nTotalValue - nTargetValue < 50 * unit64 n nTotalValue nTargetValue nGCD := by
  have hnonneg : 0 ≤ (n : ℤ) * (nTotalValue - nTargetValue) := by
    exact mul_nonneg (Int.natCast_nonneg n) (by omega)
  have hmul : nTotalValue - nTargetValue ≤ n * (nTotalValue - nTargetValue) :=
    le_mul_of_one_le_left (by omega) (by omega)
  have hwrap : wrap64 (n * (nTotalValue - nTargetValue)) = n * (nTotalValue - nTargetValue) :=
    wrap64_of_range (by omega) (by omega)
  rw [unit64, hwrap, Int.tdiv_eq_ediv_of_nonneg hnonneg]
  split_ifs <;> omega

theorem weights_of_dvd (V : CoinView) {coins : List COutput} {g : ℤ} (hg : 0 < g)
    (hall : ∀ out ∈ coins, g ∣ out.nValue) :
    g * weights g (coins.map V.single) = totalValue coins := by
  induction coins with
  | nil => exact mul_zero g
  | cons out coins ih =>
    obtain ⟨⟨k, hk⟩, hcoins⟩ := forall_mem_cons.1 hall
    have hquot : (V.single out).value.tdiv g = k := by
      rw [CoinView.single, hk, Int.mul_tdiv_cancel_left k hg.ne']
    rw [map_cons, weights_cons, mul_add, ih hcoins, totalValue_cons, hquot, hk]

section

variable {coins : List COutput} (h : Affords coins nTargetValue)
include h

/-- The approximation reaches the target. -/
theorem Affords.solveBundled64 (hdenom : 0 < denom)
    (hunit : totalValue coins - nTargetValue < 50 * denom) (V : CoinView) :
    ∃ r, Espers.solveBundled64 nTargetValue denom (coins.map V.costCoin) = .ok (selectedOf r) ∧
      Pickable coins r [] ∧ nTargetValue ≤ r.2 := by
  obtain ⟨s, hrun, hlaid, hleft, -⟩ := bundleCoins_spec V denom coins
  have hrest := (@bundle_spec V (coins.filter fun out => !decide (out.nValue ≥ denom)) denom hdenom
    ⟨0, 0, []⟩ rfl hdenom).2.2
  have hpacked : Packed V coins nTargetValue denom s (V.bundled denom coins)
      (V.unbundled denom coins) :=
    ⟨hlaid, hleft, bundled_whole V hdenom coins, bundled_perm V hdenom coins, hrest, h, hdenom,
      hunit⟩
  have hstart : Pickable coins ([], 0) ((V.bundled denom coins).flatMap Item.coins ++
      V.unbundled denom coins) := ⟨rfl, hpacked.perm.subperm⟩
  have hnormal : s.normalized denom = .ok (weights denom (V.bundled denom coins)) :=
    hlaid.normalized denom
  rw [Espers.solveBundled64, hrun]
  dsimp only [bind, Except.bind]
  rw [hnormal]
  dsimp only
  by_cases hloses : nTargetValue.tdiv denom ≥ weights denom (V.bundled denom coins)
  · -- the first items are picked
    rw [if_pos hloses]
    obtain ⟨n, hn, hdrop, hpicked⟩ := hlaid.prepick nTargetValue denom
      (weights denom (V.bundled denom coins)) s.nTotalCoinValues 0
      (by rw [hlaid.length, zero_add]) ([], 0)
    have hholding := hstart.prepick nTargetValue denom (weights denom (V.bundled denom coins))
      hpacked.item_whole
    rw [drop_zero] at hdrop hpicked
    obtain ⟨left, total, r, hpick⟩ : ∃ left total r, Espers.prepick nTargetValue denom
        (V.bundled denom coins) (weights denom (V.bundled denom coins)) ([], 0)
          = (left, total, r) := ⟨_, _, _, rfl⟩
    obtain ⟨rfl, hsum, hend⟩ := prepick_spec nTargetValue _ _ hpick
    rw [hpick] at hdrop hpicked hholding
    change s.prepick nTargetValue denom _ 0 _ ([], 0) = _ at hpicked
    rw [hpicked]
    dsimp only at hdrop hholding ⊢
    rw [hdrop] at hholding hsum hend ⊢
    by_cases hdone : r.2 ≥ nTargetValue
    · have hdone' : (asSet r).2 ≥ nTargetValue := hdone
      rw [if_pos hdone']
      rw [← append_nil (List.flatMap _ _ ++ _)] at hholding
      exact ⟨r, rfl, hholding.skip, hdone⟩
    · have hdone' : ¬ (asSet r).2 ≥ nTargetValue := hdone
      rw [if_neg hdone']
      exact hpacked.solve hn hholding (hsum.trans (zero_add _)) (Int.not_le.1 hdone) hend
  · rw [if_neg hloses]
    have hsolve := hpacked.solve (r := ([], 0)) (zero_le _)
      (by rw [drop_zero]; exact hstart) (by rw [drop_zero]; exact zero_add _) h.target
      (.inr (by rw [drop_zero, sub_zero]; exact Int.not_le.1 hloses))
    exact hsolve

/-- With `nGCD` as the unit nothing is truncated. -/
theorem Affords.solveExact {nGCD : ℤ}
    (hdenom : 0 < nGCD) (hunit : totalValue coins - nTargetValue < 50 * nGCD)
    (hdvd : nGCD ∣ nTargetValue) (hall : ∀ out ∈ coins, nGCD ∣ out.nValue)
    (hne : totalValue coins ≠ nTargetValue) (V : CoinView) :
    ∃ r, Bundles.solve nTargetValue nGCD
        ⟨coins.map V.costCoin, coins.length, [], coins.length⟩ 0 ((totalValue coins).tdiv nGCD)
        ([], 0) = .ok (selectedOf r) ∧
      Pickable coins r [] ∧ nTargetValue ≤ r.2 := by
  have hlaid := @Bundles.laid_singles V coins [] []
  rw [append_nil] at hlaid
  have hpacked : Packed V coins nTargetValue nGCD
      ⟨coins.map V.costCoin, coins.length, [], coins.length⟩ (coins.map V.single) [] := by
    refine ⟨hlaid, rfl, fun item hitem => ?_, ?_, hdenom, h, hdenom, hunit⟩
    · obtain ⟨out, -, rfl⟩ := mem_map.1 hitem
      exact V.single_whole out
    · rw [flatMap_single, append_nil]
  have hweights := weights_of_dvd V hdenom hall
  obtain ⟨a, rfl⟩ := hdvd
  have hlt : a < weights nGCD (coins.map V.single) := by
    refine lt_of_mul_lt_mul_left (a := nGCD) ?_ hdenom.le
    rw [hweights]
    exact lt_of_le_of_ne h.reached (Ne.symm hne)
  have hsolve := hpacked.solve (r := ([], 0)) (zero_le _)
    (by rw [drop_zero]; exact ⟨rfl, hpacked.perm.subperm⟩)
    (by rw [drop_zero]; exact zero_add _) h.target
    (.inr (by rw [drop_zero, sub_zero, Int.mul_tdiv_cancel_left a hdenom.ne']; exact hlt))
  rw [← hweights, Int.mul_tdiv_cancel_left _ hdenom.ne']
  exact hsolve

/-- **If the smaller coins are worth the target, some of them are picked that are**. -/
theorem Affords.solveByAge (V : CoinView)
    (hproduct : coins.length * (totalValue coins - nTargetValue) < 2 ^ 63) :
    ∃ r, Espers.solveByAge nTargetValue (coins.map V.costCoin) = .ok (selectedOf r) ∧
      Pickable coins r [] ∧ nTargetValue ≤ r.2 := by
  have hlength : (coins.map V.costCoin).length = coins.length := length_map _
  have hcoin : (coins.map V.costCoin).map CostCoin.coin = coins := by
    rw [map_map]
    exact map_id _
  obtain ⟨out, coins', hcons⟩ := exists_cons_of_ne_nil (l := coins) (by
    rintro rfl
    exact absurd h.reached (Int.not_le.2 h.target))
  have hfirst : (coins.map V.costCoin)[0]? = some (V.costCoin out) := by rw [hcons]; rfl
  have htail : (coins.map V.costCoin).tail = coins'.map V.costCoin := by rw [hcons]; rfl
  have hgcd := gcdAndTotal_eq V (hcons ▸ h.nonneg) h.target
  rw [← hcons] at hgcd
  have hcount : 0 < coins.length := hcons ▸ succ_pos _
  rw [Espers.solveByAge, vectorAt_eq hfirst, hlength, htail, hcoin]
  dsimp only [bind, Except.bind]
  rw [hgcd, if_neg (by have := h.length; omega)]
  obtain ⟨-, -, hall⟩ := gcdFrom_spec coins (g := 0) le_rfl
  have hright : ((Int.gcd nTargetValue (gcdFrom coins 0) : ℕ) : ℤ) ∣ gcdFrom coins 0 :=
    Int.gcd_dvd_right _ _
  have hleft : ((Int.gcd nTargetValue (gcdFrom coins 0) : ℕ) : ℤ) ∣ nTargetValue :=
    Int.gcd_dvd_left _ _
  have hgcdpos : (0 : ℤ) < Int.gcd nTargetValue (gcdFrom coins 0) :=
    Int.natCast_pos.2 (Int.gcd_pos_of_ne_zero_left _ h.target.ne')
  generalize ((Int.gcd nTargetValue (gcdFrom coins 0) : ℕ) : ℤ) = nGCD at *
  obtain ⟨hdenom, hunit⟩ := unit64_spec hcount hgcdpos h.reached hproduct
  rw [unit64] at hdenom hunit ⊢
  generalize (wrap64 (coins.length * (totalValue coins - nTargetValue))).tdiv 25 = approx at *
  by_cases htotal : totalValue coins = nTargetValue
  · rw [if_pos htotal]
    refine ⟨(coins, totalValue coins), rfl, ⟨rfl, ?_⟩, htotal.ge⟩
    rw [append_nil]
  rw [if_neg htotal]
  by_cases happrox : approx > nGCD
  · rw [if_pos happrox] at hdenom hunit
    rw [if_pos happrox, if_neg hdenom.ne', if_pos happrox.ne']
    exact h.solveBundled64 hdenom hunit V
  · rw [if_neg happrox] at hunit
    rw [if_neg happrox, if_neg hgcdpos.ne', if_neg (not_not.2 rfl)]
    exact h.solveExact hgcdpos hunit hleft (fun out hin => hright.trans (hall out hin)) htotal V

end

/-! ### The first loop -/

/-- The cheaper of two larger coins; at first the cost is `INT64_MAX`. -/
def CoinView.cheaper (V : CoinView) (lowest : Option COutput) (out : COutput) : Option COutput :=
  if V.coinWeightCost out.tx out.i <
      (lowest.map fun out => V.coinWeightCost out.tx out.i).getD int64Max.toNat then some out
  else lowest

/-- The first loop sorts the eligible coins by the bound. -/
theorem collectByAge64_eq (V : CoinView) (nTargetValue : ℤ) (nSpendTime : ℕ)
    (nConfMine nConfTheirs : ℤ) (mCoins : List COutput) (c : Collected) :
    collectByAge64 V nTargetValue nSpendTime nConfMine nConfTheirs mCoins c =
      ⟨(mCoins.filter fun out => V.eligible nSpendTime nConfMine nConfTheirs out &&
          !decide (out.nValue < add64 nTargetValue cent)).foldl V.cheaper c.coinLowestLarger,
        c.vValue ++ mCoins.filter fun out => V.eligible nSpendTime nConfMine nConfTheirs out &&
          decide (out.nValue < add64 nTargetValue cent),
        c.nTotalLower + totalValue (mCoins.filter fun out =>
          V.eligible nSpendTime nConfMine nConfTheirs out &&
            decide (out.nValue < add64 nTargetValue cent))⟩ := by
  induction mCoins generalizing c with
  | nil =>
    rw [collectByAge64, filter_nil, filter_nil, append_nil]
    exact congrArg (Collected.mk _ _) (add_zero _).symm
  | cons out mCoins ih =>
    rw [collectByAge64]
    cases hp : V.eligible nSpendTime nConfMine nConfTheirs out with
    | false =>
      rw [filter_cons_of_neg (by rw [hp]; exact Bool.false_ne_true),
        filter_cons_of_neg (by rw [hp]; exact Bool.false_ne_true)]
      exact ih c
    | true =>
      by_cases hsmall : out.nValue < add64 nTargetValue cent
      · rw [filter_cons_of_neg (by rw [hp, decide_eq_true hsmall]; exact Bool.false_ne_true),
          filter_cons_of_pos (by rw [hp, decide_eq_true hsmall]; rfl), if_neg (by decide),
          if_pos hsmall, ih, totalValue_cons, append_assoc, add_assoc]
        rfl
      · rw [filter_cons_of_pos (by rw [hp, decide_eq_false hsmall]; rfl),
          filter_cons_of_neg (by rw [hp, decide_eq_false hsmall]; exact Bool.false_ne_true),
          if_neg (by decide), if_neg hsmall, foldl_cons, CoinView.cheaper]
        split_ifs
        · exact ih _
        · exact ih c

/-- A larger coin is found exactly if one is not too dear. -/
theorem foldl_cheaper (V : CoinView) (large : List COutput) (lowest : Option COutput) :
    (∀ out, large.foldl V.cheaper lowest = some out → lowest = some out ∨ out ∈ large) ∧
      (large.foldl V.cheaper lowest = none ↔ lowest = none ∧
        ∀ out ∈ large, int64Max.toNat ≤ V.coinWeightCost out.tx out.i) := by
  induction large generalizing lowest with
  | nil =>
    refine ⟨fun out => .inl, fun h => ⟨h, fun out hout => absurd hout not_mem_nil⟩, And.left⟩
  | cons out large ih =>
    obtain ⟨hsome, hnone⟩ := ih (V.cheaper lowest out)
    rw [foldl_cons]
    rw [CoinView.cheaper] at hsome hnone ⊢
    split_ifs at hsome hnone ⊢ with hcheap
    · refine ⟨fun o ho => ?_, ?_⟩
      · obtain heq | hin := hsome o ho
        · exact .inr (Option.some.inj heq ▸ mem_cons_self)
        · exact .inr (mem_cons_of_mem _ hin)
      · rw [hnone]
        refine iff_of_false (fun h => by cases h.1) ?_
        rintro ⟨rfl, hall⟩
        exact absurd hcheap (not_lt.2 (hall out mem_cons_self))
    · refine ⟨fun o ho => (hsome o ho).imp_right (mem_cons_of_mem _), ?_⟩
      rw [hnone, forall_mem_cons]
      refine and_congr_right fun hlowest => (and_iff_right ?_).symm
      rw [hlowest] at hcheap
      exact not_lt.1 hcheap

/-! ### The contract -/

section Contract

variable (V : CoinView) (nTargetValue : ℤ) (nSpendTime : ℕ) (nConfMine nConfTheirs : ℤ)
  (vCoins : List COutput)

/-- The eligible coins below the target and a cent. -/
def CoinView.smaller : List COutput := vCoins.filter fun out =>
  V.eligible nSpendTime nConfMine nConfTheirs out && decide (out.nValue < nTargetValue + cent)

/-- The other eligible coins. -/
def CoinView.larger : List COutput := vCoins.filter fun out =>
  V.eligible nSpendTime nConfMine nConfTheirs out && !decide (out.nValue < nTargetValue + cent)

/-- The product that gives the unit does not overflow, nor do the counters of the loops. -/
def CoinView.UnitFits : Prop :=
  nTargetValue ≤ totalValue (V.smaller nTargetValue nSpendTime nConfMine nConfTheirs vCoins) →
    (V.smaller nTargetValue nSpendTime nConfMine nConfTheirs vCoins).length + 1 < 2 ^ 32 ∧
      (V.smaller nTargetValue nSpendTime nConfMine nConfTheirs vCoins).length *
        (totalValue (V.smaller nTargetValue nSpendTime nConfMine nConfTheirs vCoins) - nTargetValue)
          < 2 ^ 63

/-- A larger coin can be taken where it has to, and is not where it must not. -/
structure CoinView.NotTooDear : Prop where
  taken : nTargetValue + cent < 2 ^ 63 →
    totalValue (V.smaller nTargetValue nSpendTime nConfMine nConfTheirs vCoins) < nTargetValue →
      V.larger nTargetValue nSpendTime nConfMine nConfTheirs vCoins ≠ [] →
        ∃ out ∈ V.larger nTargetValue nSpendTime nConfMine nConfTheirs vCoins,
          V.coinWeightCost out.tx out.i < 2 ^ 63 - 1
  passed : 2 ^ 63 ≤ nTargetValue + cent → ∀ out ∈ vCoins,
    V.eligible nSpendTime nConfMine nConfTheirs out = true →
      2 ^ 63 - 1 ≤ V.coinWeightCost out.tx out.i

end Contract

variable {nSpendTime : ℕ} {nConfMine nConfTheirs : ℤ} {vCoins : List COutput}

theorem smaller_sublist (V : CoinView) (nTargetValue : ℤ) :
    (V.smaller nTargetValue nSpendTime nConfMine nConfTheirs vCoins).Sublist
      (vCoins.filter (V.eligible nSpendTime nConfMine nConfTheirs)) := by
  rw [CoinView.smaller, ← filter_filter]
  exact filter_sublist.filter _

/-- The smaller coins in any order, if they are worth the target. -/
theorem CoinView.UnitFits.affords
    (h : V.UnitFits nTargetValue nSpendTime nConfMine nConfTheirs vCoins)
    (hnonneg : ∀ out ∈ vCoins, 0 ≤ out.nValue)
    (htotal : totalValue vCoins < 9223372036854775808 - cent) (hpos : 0 < nTargetValue)
    {smaller : List COutput}
    (hperm : smaller.Perm (V.smaller nTargetValue nSpendTime nConfMine nConfTheirs vCoins))
    (hreached : nTargetValue ≤ totalValue smaller) :
    Affords smaller nTargetValue ∧
      smaller.length * (totalValue smaller - nTargetValue) < 2 ^ 63 := by
  rw [totalValue_perm hperm] at hreached ⊢
  obtain ⟨hlength, hproduct⟩ := h hreached
  rw [← hperm.length_eq] at hlength hproduct
  have hsub := @smaller_sublist nSpendTime nConfMine nConfTheirs vCoins V nTargetValue
  refine ⟨⟨hpos, fun out hout => ?_, ?_, ?_, hlength⟩, hproduct⟩
  · exact hnonneg out (mem_of_mem_filter (hsub.subset (hperm.mem_iff.1 hout)))
  · rw [totalValue_perm hperm]
    refine (totalValue_filter_le hnonneg).trans_lt (htotal.trans_le ?_)
    unfold cent
    omega
  · rw [totalValue_perm hperm]
    exact hreached

theorem Pickable.selectedOf {coins : List COutput} (h : Pickable coins r []) :
    Espers.selectedOf r = .insertAll r.1 .clear := by
  rw [insertAll_eq, ← h.value]
  rfl

/-- If the smaller coins are worth the target, the dynamic programming meets the contract. -/
theorem selectByAge64_of_reached (order : CostOrder V)
    (hdistinct : (vCoins.map COutput.prevout).Nodup) (hnonneg : ∀ out ∈ vCoins, 0 ≤ out.nValue)
    (htotal : totalValue vCoins < 9223372036854775808 - cent) (hpos : 0 < nTargetValue)
    (hfits : nTargetValue + cent < 9223372036854775808)
    (hunit : V.UnitFits nTargetValue nSpendTime nConfMine nConfTheirs vCoins)
    (hreached : nTargetValue ≤
      totalValue (V.smaller nTargetValue nSpendTime nConfMine nConfTheirs vCoins)) :
    ∃ ret, selectByAge64 V order nTargetValue nSpendTime nConfMine nConfTheirs vCoins = .ok ret ∧
      SelectsCoins V nTargetValue nSpendTime nConfMine nConfTheirs vCoins ret := by
  have hadd : add64 nTargetValue cent = nTargetValue + cent :=
    wrap64_of_range (by unfold cent; omega) hfits
  rw [selectByAge64, collectByAge64_eq, hadd]
  have hperm : ((order.sort vCoins).filter fun out =>
      V.eligible nSpendTime nConfMine nConfTheirs out &&
        decide (out.nValue < nTargetValue + cent)).Perm
      (V.smaller nTargetValue nSpendTime nConfMine nConfTheirs vCoins) :=
    (order.sort_perm vCoins).filter _
  rw [← totalValue_perm hperm] at hreached
  rw [zero_add, nil_append, if_neg (Int.not_lt.2 hreached)]
  obtain ⟨haffords, hproduct⟩ := hunit.affords hnonneg htotal hpos hperm hreached
  obtain ⟨r, hrun, hholding, hle⟩ := haffords.solveByAge V hproduct
  have hpicked := hholding.subperm
  rw [append_nil] at hpicked
  refine ⟨selectedOf r, hrun, ?_⟩
  rw [hholding.selectedOf]
  exact .insertAll hdistinct hnonneg
    (hpicked.trans (hperm.subperm.trans (smaller_sublist V nTargetValue).subperm))
    (hholding.value ▸ hle)

/-- If they are not, a larger coin is taken, or all are too dear. -/
theorem selectByAge64_of_less (order : CostOrder V) (hless : totalValue (vCoins.filter fun out =>
      V.eligible nSpendTime nConfMine nConfTheirs out &&
        decide (out.nValue < add64 nTargetValue cent)) < nTargetValue) :
    (selectByAge64 V order nTargetValue nSpendTime nConfMine nConfTheirs vCoins = .ok .clear ∧
        ∀ out ∈ vCoins, V.eligible nSpendTime nConfMine nConfTheirs out = true →
          add64 nTargetValue cent ≤ out.nValue → 2 ^ 63 - 1 ≤ V.coinWeightCost out.tx out.i) ∨
      ∃ out ∈ vCoins, V.eligible nSpendTime nConfMine nConfTheirs out = true ∧
        add64 nTargetValue cent ≤ out.nValue ∧
        selectByAge64 V order nTargetValue nSpendTime nConfMine nConfTheirs vCoins
          = .ok (.insertAll [out] .clear) ∧
        ∃ out' ∈ vCoins, V.eligible nSpendTime nConfMine nConfTheirs out' = true ∧
          add64 nTargetValue cent ≤ out'.nValue ∧
          V.coinWeightCost out'.tx out'.i < 2 ^ 63 - 1 := by
  have hmem : ∀ out, out ∈ ((order.sort vCoins).filter fun out =>
      V.eligible nSpendTime nConfMine nConfTheirs out &&
        !decide (out.nValue < add64 nTargetValue cent)) ↔ out ∈ vCoins ∧
      V.eligible nSpendTime nConfMine nConfTheirs out = true ∧
        add64 nTargetValue cent ≤ out.nValue := fun out => by
    rw [mem_filter, (order.sort_perm vCoins).mem_iff, Bool.and_eq_true, Bool.not_eq_true',
      decide_eq_false_iff_not, Int.not_lt]
  have hmax : int64Max.toNat = 2 ^ 63 - 1 := by decide
  obtain ⟨hsome, hnone⟩ := foldl_cheaper V ((order.sort vCoins).filter fun out =>
    V.eligible nSpendTime nConfMine nConfTheirs out &&
      !decide (out.nValue < add64 nTargetValue cent)) none
  rw [selectByAge64, collectByAge64_eq]
  rw [zero_add, totalValue_perm ((order.sort_perm vCoins).filter _), if_pos hless]
  generalize ((order.sort vCoins).filter fun out =>
    V.eligible nSpendTime nConfMine nConfTheirs out &&
      !decide (out.nValue < add64 nTargetValue cent)).foldl V.cheaper none = lowest at *
  cases lowest with
  | none =>
    refine .inl ⟨rfl, fun out hout hp hle => ?_⟩
    exact hmax ▸ (hnone.1 rfl).2 out ((hmem out).2 ⟨hout, hp, hle⟩)
  | some out =>
    have hin := (hsome out rfl).resolve_left fun h => by cases h
    obtain ⟨hout, hp, hle⟩ := (hmem out).1 hin
    refine .inr ⟨out, hout, hp, hle, rfl, ?_⟩
    by_contra hdear
    have hall := hnone.2 ⟨rfl, fun out' hin' => ?_⟩
    · cases hall
    · obtain ⟨hout', hp', hle'⟩ := (hmem out').1 hin'
      exact not_lt.1 fun hlt => hdear ⟨out', hout', hp', hle', hlt⟩

/-! ### The integers -/

/-- Equal costs stay in their order. -/
def CostOrder.stable (V : CoinView) : CostOrder V where
  sort coins := coins.mergeSort fun a b =>
    decide (V.coinWeightCost a.tx a.i ≤ V.coinWeightCost b.tx b.i)
  sort_perm coins := mergeSort_perm coins _
  sort_pairwise coins := by
    refine (pairwise_mergeSort ?_ ?_ coins).imp fun h => of_decide_eq_true h
    · intro a b c hab hbc
      exact decide_eq_true ((of_decide_eq_true hab).trans (of_decide_eq_true hbc))
    · intro a b
      rw [Bool.or_eq_true, decide_eq_true_eq, decide_eq_true_eq]
      exact le_total _ _

/-! ### When the contract holds -/

/-- **The contract of `SelectCoinsMinConfByCoinAge`**, for any order of equal costs: where the unit
fits, it holds exactly if no larger coin is too dear to be taken, and none is taken for a target
that overflows with a cent. -/
theorem selectByAge_contract_iff (V : CoinView) (order : CostOrder V) (nTargetValue : ℤ)
    (nSpendTime : ℕ) (nConfMine nConfTheirs : ℤ) (vCoins : List COutput)
    (hdistinct : (vCoins.map COutput.prevout).Nodup) (hnonneg : ∀ out ∈ vCoins, 0 ≤ out.nValue)
    (htotal : totalValue vCoins < 2 ^ 63 - cent) (hpos : 0 < nTargetValue)
    (htarget : nTargetValue < 2 ^ 63)
    (hunit : V.UnitFits nTargetValue nSpendTime nConfMine nConfTheirs vCoins) :
    (∃ ret, selectByAge64 V order nTargetValue nSpendTime nConfMine nConfTheirs vCoins = .ok ret ∧
        SelectsCoins V nTargetValue nSpendTime nConfMine nConfTheirs vCoins ret) ↔
      V.NotTooDear nTargetValue nSpendTime nConfMine nConfTheirs vCoins := by
  by_cases hfits : nTargetValue + cent < 2 ^ 63
  · by_cases hreached : nTargetValue ≤
        totalValue (V.smaller nTargetValue nSpendTime nConfMine nConfTheirs vCoins)
    · refine iff_of_true ?_ ⟨fun _ hless => absurd hreached (Int.not_le.2 hless),
        fun hover => absurd hfits (Int.not_lt.2 hover)⟩
      exact selectByAge64_of_reached order hdistinct hnonneg htotal hpos hfits hunit hreached
    · have hadd : add64 nTargetValue cent = nTargetValue + cent :=
        wrap64_of_range (by unfold cent; omega) hfits
      have hless := Int.not_le.1 hreached
      obtain ⟨hret, hall⟩ | ⟨out, hout, hp, hle, hret, out', hout', hp', hle', hcost⟩ :=
        selectByAge64_of_less order (by rw [hadd]; exact hless)
      · rw [hadd] at hall
        have hsplit : totalValue (V.smaller nTargetValue nSpendTime nConfMine nConfTheirs vCoins) +
            totalValue (V.larger nTargetValue nSpendTime nConfMine nConfTheirs vCoins) =
              totalValue (vCoins.filter (V.eligible nSpendTime nConfMine nConfTheirs)) :=
          totalValue_filter_add_not vCoins (V.eligible nSpendTime nConfMine nConfTheirs)
            fun out => decide (out.nValue < nTargetValue + cent)
        by_cases hlarger : V.larger nTargetValue nSpendTime nConfMine nConfTheirs vCoins = []
        · -- there is no larger coin, and the smaller ones are not worth the target
          refine iff_of_true ⟨.clear, hret, .clear ?_⟩
            ⟨fun _ _ hne => absurd hlarger hne, fun hover => absurd hfits (Int.not_lt.2 hover)⟩
          rw [hlarger] at hsplit
          rw [← hsplit]
          exact (add_zero _).trans_lt hless
        · obtain ⟨out, hout⟩ := exists_mem_of_ne_nil _ hlarger
          obtain ⟨hin, hp⟩ := mem_filter.1 hout
          rw [Bool.and_eq_true, Bool.not_eq_true', decide_eq_false_iff_not, Int.not_lt] at hp
          refine iff_of_false ?_ fun h => ?_
          · rintro ⟨ret, hret', hselects⟩
            obtain rfl := ok.inj (hret.symm.trans hret')
            have hle : out.nValue ≤
                totalValue (vCoins.filter (V.eligible nSpendTime nConfMine nConfTheirs)) :=
              nValue_le_totalValue (fun o ho => hnonneg o (mem_of_mem_filter ho))
                (mem_filter.2 ⟨hin, hp.1⟩)
            have hlt := hp.2
            unfold cent at hlt
            exact Bool.false_ne_true (hselects.fRet_iff.2 (by omega))
          · obtain ⟨out', hout', hcost⟩ := h.taken hfits hless hlarger
            obtain ⟨hin', hp'⟩ := mem_filter.1 hout'
            rw [Bool.and_eq_true, Bool.not_eq_true', decide_eq_false_iff_not, Int.not_lt] at hp'
            exact absurd hcost (not_lt.2 (hall out' hin' hp'.1 hp'.2))
      · refine iff_of_true ⟨_, hret, ?_⟩ ⟨fun _ _ _ => ⟨out', ?_, hcost⟩,
          fun hover => absurd hfits (Int.not_lt.2 hover)⟩
        · refine .insertAll hdistinct hnonneg
            (singleton_subperm_iff.2 (mem_filter.2 ⟨hout, hp⟩)) ?_
          rw [hadd] at hle
          rw [totalValue_singleton]
          unfold cent at hle
          omega
        · refine mem_filter.2 ⟨hout', ?_⟩
          rw [hadd] at hle'
          rw [hp', decide_eq_false (Int.not_lt.2 hle')]
          rfl
  · have hneg : add64 nTargetValue cent < 0 := by
      unfold add64 wrap64 cent at *
      omega
    have hless : totalValue vCoins < nTargetValue := by omega
    have hnone : (vCoins.filter fun out => V.eligible nSpendTime nConfMine nConfTheirs out &&
        decide (out.nValue < add64 nTargetValue cent)) = [] := by
      refine filter_eq_nil_iff.2 fun out hout hp => ?_
      rw [Bool.and_eq_true, decide_eq_true_eq] at hp
      have hle := hnonneg out hout
      omega
    obtain ⟨hret, hall⟩ | ⟨out, -, -, -, hret, out', hout', hp', -, hcost⟩ :=
      selectByAge64_of_less order (by rw [hnone]; exact hpos)
    · refine iff_of_true ⟨.clear, hret, .clear ((totalValue_filter_le hnonneg).trans_lt hless)⟩
        ⟨fun h => absurd h hfits, fun _ out hout hp => hall out hout hp ?_⟩
      exact hneg.le.trans (hnonneg out hout)
    · refine iff_of_false ?_ fun h => ?_
      · rintro ⟨ret, hret', hselects⟩
        obtain rfl := ok.inj (hret.symm.trans hret')
        exact not_selectsCoins_insertAll hnonneg hless hselects
      · exact absurd hcost (not_lt.2 (h.passed (Int.not_lt.1 hfits) out' hout' hp'))

/-- All coins are so many days old. -/
def CoinView.aged (V : CoinView) (days : ℕ) : CoinView :=
  { V with
    coinWeightCost := fun tx i => ((tx.vout.getD i ⟨0, []⟩).nValue * days % 2 ^ 64).toNat }

/-- Two of three coins are worth the target. -/
theorem selectByAge_contract_three :
    ∃ ret, selectByAge64 (deepView.aged 100) (.stable _) (1500 * coin) 0 1 10
        [coinOf 1 1000, coinOf 2 800, coinOf 3 700] = .ok ret ∧
      SelectsCoins (deepView.aged 100) (1500 * coin) 0 1 10
        [coinOf 1 1000, coinOf 2 800, coinOf 3 700] ret :=
  (selectByAge_contract_iff (deepView.aged 100) (.stable _) (1500 * coin) 0 1 10
    [coinOf 1 1000, coinOf 2 800, coinOf 3 700] (by decide) (by decide) (by decide) (by decide)
    (by decide) (by unfold CoinView.UnitFits; decide)).2
    ⟨fun _ hless => absurd hless (by decide), fun hover => absurd hover (by decide)⟩

/-- A coin of a thousand million coins that is 100 days old is too dear to be taken: `INT64_MAX` is
where the search for a larger coin starts. -/
theorem selectByAge_dear : ([coinOf 1 1000000000].map COutput.prevout).Nodup ∧
    (∀ out ∈ [coinOf 1 1000000000], 0 ≤ out.nValue) ∧
    totalValue [coinOf 1 1000000000] < 2 ^ 63 - cent ∧
    selectByAge64 (deepView.aged 100) (.stable _) (3 * coin) 0 1 10 [coinOf 1 1000000000]
      = .ok .clear ∧
    ¬ ∃ ret, selectByAge64 (deepView.aged 100) (.stable _) (3 * coin) 0 1 10
        [coinOf 1 1000000000] = .ok ret ∧
      SelectsCoins (deepView.aged 100) (3 * coin) 0 1 10 [coinOf 1 1000000000] ret := by
  have hsort : (CostOrder.stable (deepView.aged 100)).sort [coinOf 1 1000000000]
      = [coinOf 1 1000000000] := mergeSort_singleton _
  have hret : selectByAge64 (deepView.aged 100) (.stable _) (3 * coin) 0 1 10
      [coinOf 1 1000000000] = .ok .clear := by
    rw [selectByAge64, hsort]
    rfl
  refine ⟨by decide, by decide, by decide, hret, ?_⟩
  rintro ⟨ret, hret', hselects⟩
  obtain rfl := ok.inj (hret.symm.trans hret')
  exact Bool.false_ne_true (hselects.fRet_iff.2 (by decide))

end

end Espers
