import Espers.Core.Codec
import Espers.Stake.CoinStake
import Espers.Wallet.Select

/-!
# Payments

`CreateTransaction` makes a transaction in rounds.  A round pays the fee that the last one found to
be necessary: it selects coins, adds the change, and signs; if the fee is too low for the size, the
next round pays more.

* `createLoop_terminates` : the fee grows in every round, and takes 1500 values after the first.
* `createLoop_spec` : what the last round has made.
* `createTransaction_balances_iff` : **the loop ends, and what it makes is balanced exactly if
  neither the sum of the payments and the fee nor the fee for its size overflows.**
-/

namespace Espers

open Exec List Int

/-! ### The source -/

/-- What `CreateTransaction` is given besides the payments, and what it asks for in a round; a round
is known by its fee. -/
structure Sending where
  nTransactionFee : ℤ
  nBestHeight : ℤ
  /-- `wtxNew.nTime`. -/
  nTime : ℕ
  /-- The coins that the user has selected. -/
  coinControl : List COutPoint
  /-- `GetRandInt(100)`, if `GetRandInt(10)` is zero. -/
  lockBack : Option ℕ
  /-- `SelectCoinsMinConf` or `SelectCoinsMinConfByCoinAge`, in the three attempts of a round. -/
  selectMinConf : ℤ → ℕ → ℤ → ℕ → ℤ → ℤ → List COutput → Selected
  /-- The order of the set of coins, by pointers. -/
  arrange : List COutput → List COutput
  arrange_perm : ∀ setCoins, (arrange setCoins).Perm setCoins
  /-- The script for the change, of the coin control or of a reserved key; there may be no key. -/
  scriptChange : ℤ → Option CScript
  /-- `GetRandInt(wtxNew.vout.size() + 1)`. -/
  position : ℤ → ℕ → ℕ
  position_le : ∀ nFeeRet n, position nFeeRet n ≤ n
  /-- `SignSignature` for all inputs; the size of the signatures may differ. -/
  sign : ℤ → List COutput → CTransaction → Option CTransaction
  sign_frame : ∀ nFeeRet setCoins tx tx', sign nFeeRet setCoins tx = some tx' →
    SameButScripts tx tx'

/-- The total value of the payments, when no running sum is negative. -/
def paymentTotal64 (nValue : ℤ) : List (CScript × ℤ) → Option ℤ
  | [] => if nValue < 0 then none else some nValue
  | s :: vecSend => if nValue < 0 then none else paymentTotal64 (add64 nValue s.2) vecSend

/-- `wtxNew.nLockTime`. -/
def Sending.nLockTime (C : Sending) : ℕ :=
  (max 0 (C.nBestHeight - 10)).toNat - C.lockBack.getD 0

/-- `SelectCoins`. -/
def Sending.selectCoins (C : Sending) (K : Keystore) (V : CoinView) (w : Wallet) (nFeeRet : ℤ)
    (nTargetValue : ℤ) : Selected :=
  let vCoins := w.offer K V (V.skips true) (isSelected C.coinControl)
  if !C.coinControl.isEmpty then
    let ret := Selected.insertAll vCoins .clear
    { ret with fRet := decide (ret.nValueRet ≥ nTargetValue) }
  else
    let attempt := fun i nConfMine nConfTheirs =>
      C.selectMinConf nFeeRet i nTargetValue C.nTime nConfMine nConfTheirs vCoins
    if (attempt 0 1 10).fRet then attempt 0 1 10
    else if (attempt 1 1 1).fRet then attempt 1 1 1
    else attempt 2 0 1

/-- The outputs with the change at a random place. -/
def Sending.withChange (C : Sending) (nFeeRet nChange : ℤ) (vout : List CTxOut) :
    Option (List CTxOut) :=
  if nChange > 0 then
    (C.scriptChange nFeeRet).map fun scriptChange =>
      vout.insertIdx (C.position nFeeRet vout.length) ⟨nChange, scriptChange⟩
  else some vout

/-- `MAX_STANDARD_TX_SIZE`. -/
def maxStandardTxSize : ℕ := maxBlockSizeGen / 5

/-- A round of the loop of `CreateTransaction`: the signed transaction, unless it returns false. -/
def Sending.round (C : Sending) (K : Keystore) (V : CoinView) (w : Wallet)
    (vecSend : List (CScript × ℤ)) (nValue nFeeRet : ℤ) : Except Stop (Option CTransaction) :=
  let ret := C.selectCoins K V w nFeeRet (add64 nValue nFeeRet)
  if !ret.fRet then .ok none
  else
    let setCoins := C.arrange ret.setCoinsRet
    let nChange := sub64 (sub64 ret.nValueRet nValue) nFeeRet
    match C.withChange nFeeRet nChange (vecSend.map fun s => ⟨s.2, s.1⟩) with
    | none => .error (.crash "assert(ret)")
    | some vout =>
      match C.sign nFeeRet setCoins
        ⟨1, C.nTime, setCoins.map fun out => ⟨out.prevout, [], uintMax - 1⟩, vout, C.nLockTime⟩ with
      | none => .ok none
      | some wtxNew =>
        if wtxNew.serSize ≥ maxStandardTxSize then .ok none else .ok (some wtxNew)

/-- The fee for a size: `max(nPayFee, nMinFee)`. -/
def requiredFee (nTransactionFee : ℤ) (nBytes : ℕ) : ℤ :=
  max (mul64 nTransactionFee (1 + (nBytes : ℤ) / 1000)) (getMinFee 1 nBytes)

/-- The loop of `CreateTransaction`: the transaction and its fee, unless it returns false; `none` if
the rounds are used up. -/
def Sending.createLoop (C : Sending) (K : Keystore) (V : CoinView) (w : Wallet)
    (vecSend : List (CScript × ℤ)) (nValue : ℤ) :
    ℕ → ℤ → Option (Except Stop (Option (CTransaction × ℤ)))
  | 0, _ => none
  | rounds + 1, nFeeRet =>
    match C.round K V w vecSend nValue nFeeRet with
    | .error e => some (.error e)
    | .ok none => some (.ok none)
    | .ok (some wtxNew) =>
      if nFeeRet < requiredFee C.nTransactionFee wtxNew.serSize then
        C.createLoop K V w vecSend nValue rounds (requiredFee C.nTransactionFee wtxNew.serSize)
      else some (.ok (some (wtxNew, nFeeRet)))

/-- `CreateTransaction`, with a bound on the rounds. -/
def Sending.createTransaction (C : Sending) (K : Keystore) (V : CoinView) (w : Wallet)
    (vecSend : List (CScript × ℤ)) (rounds : ℕ) :
    Option (Except Stop (Option (CTransaction × ℤ))) :=
  match paymentTotal64 0 vecSend with
  | none => some (.ok none)
  | some nValue =>
    if vecSend.isEmpty then some (.ok none)
    else if ¬ ((C.nLockTime : ℤ) ≤ C.nBestHeight % 2 ^ 32 ∧ C.nLockTime < locktimeThreshold) then
      some (.error (.crash "assert(wtxNew.nLockTime <= (unsigned int)nBestHeight)"))
    else C.createLoop K V w vecSend nValue rounds C.nTransactionFee

/-! ### The loop ends -/

variable {C : Sending} {K : Keystore} {V : CoinView} {w : Wallet} {vecSend : List (CScript × ℤ)}
  {nValue nFeeRet nTransactionFee : ℤ} {rounds : ℕ} {wtx : CTransaction}

theorem getMinFee_one (nBytes : ℕ) :
    getMinFee 1 nBytes = if moneyRange (mul64 (1 + (nBytes : ℤ) / 1000) minTxFee) then
      mul64 (1 + (nBytes : ℤ) / 1000) minTxFee else maxSingleTx := by
  rw [getMinFee]
  exact if_neg fun h => h.1 rfl

theorem requiredFee_thousands (nTransactionFee : ℤ) (nBytes : ℕ) :
    requiredFee nTransactionFee (1000 * (nBytes / 1000)) = requiredFee nTransactionFee nBytes := by
  have hdiv : ((1000 * (nBytes / 1000) : ℕ) : ℤ) / 1000 = (nBytes : ℤ) / 1000 := by omega
  rw [requiredFee, requiredFee, getMinFee_one, getMinFee_one, hdiv]

/-- The sizes, in thousands, for which a fee is too low. -/
def tooLow (nTransactionFee nFeeRet : ℤ) : Finset ℕ :=
  (Finset.range 1500).filter fun k => nFeeRet < requiredFee nTransactionFee (1000 * k)

theorem tooLow_ssubset {nBytes : ℕ} (hsize : nBytes < maxStandardTxSize)
    (h : nFeeRet < requiredFee nTransactionFee nBytes) :
    tooLow nTransactionFee (requiredFee nTransactionFee nBytes) ⊂
      tooLow nTransactionFee nFeeRet := by
  have hmax : maxStandardTxSize = 1500000 := by decide
  have hk : nBytes / 1000 ∈ Finset.range 1500 := Finset.mem_range.2 (by omega)
  refine Finset.ssubset_iff_subset_ne.2 ⟨fun k hmem => ?_, fun heq => ?_⟩
  · obtain ⟨hrange, hlow⟩ := Finset.mem_filter.1 hmem
    exact Finset.mem_filter.2 ⟨hrange, h.trans hlow⟩
  · have hmem : nBytes / 1000 ∈ tooLow nTransactionFee nFeeRet :=
      Finset.mem_filter.2 ⟨hk, by rw [requiredFee_thousands]; exact h⟩
    rw [← heq] at hmem
    have hlow := (Finset.mem_filter.1 hmem).2
    rw [requiredFee_thousands] at hlow
    exact lt_irrefl _ hlow

theorem Sending.round_size (h : C.round K V w vecSend nValue nFeeRet = .ok (some wtx)) :
    wtx.serSize < maxStandardTxSize := by
  unfold round at h
  dsimp only at h
  split_ifs at h
  · cases h
  split at h
  · cases h
  split at h
  · cases h
  split_ifs at h with hsize
  · cases h
  · cases h
    exact Nat.not_le.1 hsize

/-- **The loop ends** after as many rounds as there are sizes for which the fee is too low. -/
theorem createLoop_terminates (h : (tooLow C.nTransactionFee nFeeRet).card < rounds) :
    (C.createLoop K V w vecSend nValue rounds nFeeRet).isSome := by
  induction rounds generalizing nFeeRet with
  | zero => exact absurd h (Nat.not_lt_zero _)
  | succ rounds ih =>
    rw [Sending.createLoop]
    cases hround : C.round K V w vecSend nValue nFeeRet with
    | error e => rfl
    | ok made =>
      cases made with
      | none => rfl
      | some wtxNew =>
        dsimp only
        split_ifs with hlow
        · have hless := Finset.card_lt_card (tooLow_ssubset (Sending.round_size hround) hlow)
          exact ih (by omega)
        · rfl

/-! ### The coins of a round -/

/-- The outputs of the wallet that are its own and not spent. -/
def Wallet.ownOutpoints (K : Keystore) (w : Wallet) : List COutPoint :=
  w.availableCoins K (fun _ => false) fun _ _ => true

/-- The value of all of them. -/
def Wallet.ownValue (K : Keystore) (w : Wallet) : ℤ := ((w.ownOutpoints K).map w.valueAt).sum

theorem Wallet.Offers.mem_ownOutpoints {out : COutput} (h : w.Offers K out) :
    out.prevout ∈ w.ownOutpoints K := by
  refine mem_flatMap.2 ⟨⟨out.hash, out.tx⟩, AList.mem_lookup_iff.1 h.lookup, ?_⟩
  refine mem_map.2 ⟨out.i, mem_filter.2 ⟨mem_range.2 h.index, ?_⟩, rfl⟩
  have hindex := h.index
  have htxout : out.txout = out.tx.vout[out.i] := by
    rw [COutput.txout, getD_eq_getElem?_getD, getElem?_eq_getElem hindex, Option.getD_some]
  have hmine := h.isMine
  have hvalue := h.nValue
  rw [COutput.nValue] at hvalue
  rw [htxout] at hmine hvalue
  simp [h.unspent, getElem?_eq_getElem h.index, hmine, hvalue]

/-- Different own outputs are worth no more than all of them. -/
theorem Wallet.sum_valueAt_le (V : CoinView) (hmin : 0 ≤ K.nMinimumInputValue)
    {prevouts : List COutPoint} (hdistinct : prevouts.Nodup)
    (hown : ∀ o ∈ prevouts, ∃ out, w.Offers K out ∧ out.prevout = o) :
    (prevouts.map w.valueAt).sum ≤ w.ownValue K := by
  have hsub : prevouts.Subperm (w.ownOutpoints K) := by
    refine subperm_of_subset hdistinct fun o ho => ?_
    obtain ⟨out, hout, rfl⟩ := hown o ho
    exact hout.mem_ownOutpoints
  have hnonneg : ∀ o ∈ w.ownOutpoints K, 0 ≤ w.valueAt o := by
    intro o ho
    rw [ownOutpoints, ← Wallet.map_offer (V := V)] at ho
    obtain ⟨out, hout, rfl⟩ := mem_map.1 ho
    rw [(offers_of_mem hout).valueAt]
    exact hmin.trans (offers_of_mem hout).nValue
  obtain ⟨l, hperm, hsublist⟩ := hsub
  rw [← (hperm.map w.valueAt).sum_eq]
  refine (hsublist.map w.valueAt).sum_le_sum fun n hn => ?_
  obtain ⟨o, ho, rfl⟩ := mem_map.1 hn
  exact hnonneg o ho

theorem Wallet.totalValue_offer_le (V : CoinView) (hmin : 0 ≤ K.nMinimumInputValue)
    (skips : CWalletTx → Bool) (selected : Uint256 → ℕ → Bool) :
    totalValue (w.offer K V skips selected) ≤ w.ownValue K := by
  have hmap : totalValue (w.offer K V skips selected) =
      (((w.offer K V skips selected).map COutput.prevout).map w.valueAt).sum := by
    rw [map_map]
    exact congrArg List.sum (map_congr_left fun out hout =>
      (offers_of_mem hout).valueAt.symm)
  rw [hmap]
  refine Wallet.sum_valueAt_le V hmin nodup_offer fun o ho => ?_
  obtain ⟨out, hout, rfl⟩ := mem_map.1 ho
  exact ⟨out, offers_of_mem hout, rfl⟩

/-- The algorithms that select coins meet their contract. -/
def Sending.MeetsContract (C : Sending) (V : CoinView) : Prop :=
  ∀ nFeeRet i nTargetValue nSpendTime nConfMine nConfTheirs (vCoins : List COutput),
    (vCoins.map COutput.prevout).Nodup → (∀ out ∈ vCoins, 0 ≤ out.nValue) →
    totalValue vCoins < 2 ^ 63 - cent → 0 < nTargetValue → nTargetValue < 2 ^ 63 →
    SelectsCoins V nTargetValue nSpendTime nConfMine nConfTheirs vCoins
      (C.selectMinConf nFeeRet i nTargetValue nSpendTime nConfMine nConfTheirs vCoins)

/-- Coins that are on offer, each once, with their value, which reaches the target. -/
structure Selected.Reaches (vCoins : List COutput) (nTargetValue : ℤ) (ret : Selected) : Prop where
  subset : ∀ out ∈ ret.setCoinsRet, out ∈ vCoins
  distinct : (ret.setCoinsRet.map COutput.prevout).Nodup
  nValueRet : ret.nValueRet = totalValue ret.setCoinsRet
  target : nTargetValue ≤ ret.nValueRet

theorem SelectsCoins.reaches {nTargetValue : ℤ} {nSpendTime : ℕ} {nConfMine nConfTheirs : ℤ}
    {vCoins : List COutput} {ret : Selected}
    (h : SelectsCoins V nTargetValue nSpendTime nConfMine nConfTheirs vCoins ret)
    (hret : ret.fRet = true) : ret.Reaches vCoins nTargetValue :=
  ⟨fun out hout => (h.subset out hout).1, h.distinct, (h.exact hret).1, (h.exact hret).2⟩

/-- A selection that succeeds reaches a positive target. -/
theorem Sending.selectCoins_reaches (nFeeRet nTargetValue : ℤ) (hcontract : C.MeetsContract V)
    (hmin : 0 ≤ K.nMinimumInputValue) (hown : w.ownValue K < 2 ^ 63 - cent)
    (hpos : 0 < nTargetValue) (hfits : nTargetValue < 2 ^ 63)
    (h : (C.selectCoins K V w nFeeRet nTargetValue).fRet = true) :
    (C.selectCoins K V w nFeeRet nTargetValue).Reaches
      (w.offer K V (V.skips true) (isSelected C.coinControl)) nTargetValue := by
  have hnonneg : ∀ out ∈ w.offer K V (V.skips true) (isSelected C.coinControl), 0 ≤ out.nValue :=
    fun out hout => hmin.trans (Wallet.offers_of_mem hout).nValue
  have htotal := (Wallet.totalValue_offer_le (w := w) V hmin (V.skips true)
    (isSelected C.coinControl)).trans_lt hown
  have hdistinct : ((w.offer K V (V.skips true) (isSelected C.coinControl)).map
      COutput.prevout).Nodup := Wallet.nodup_offer
  generalize hoffer : w.offer K V (V.skips true) (isSelected C.coinControl) = vCoins at *
  unfold selectCoins at h ⊢
  dsimp only at h ⊢
  rw [hoffer] at h ⊢
  by_cases hcontrol : (!C.coinControl.isEmpty) = true
  · rw [if_pos hcontrol, insertAll_of_nodup hdistinct] at h ⊢
    exact ⟨fun _ hout => hout, hdistinct, rfl, of_decide_eq_true h⟩
  · rw [if_neg hcontrol] at h ⊢
    have hattempt := fun i nConfMine nConfTheirs => hcontract nFeeRet i nTargetValue C.nTime
      nConfMine nConfTheirs vCoins hdistinct hnonneg htotal hpos hfits
    split_ifs at h ⊢ with h0 h1
    · exact (hattempt 0 1 10).reaches h
    · exact (hattempt 1 1 1).reaches h
    · exact (hattempt 2 0 1).reaches h

/-! ### What the last round has made -/

/-- The transaction of a round before it is signed. -/
def Sending.unsigned (C : Sending) (setCoins : List COutput) (vout : List CTxOut) : CTransaction :=
  ⟨1, C.nTime, setCoins.map fun out => ⟨out.prevout, [], uintMax - 1⟩, vout, C.nLockTime⟩

/-- A round makes a transaction of the selected coins and of the payments with the change. -/
theorem Sending.round_spec (h : C.round K V w vecSend nValue nFeeRet = .ok (some wtx)) :
    ∃ ret vout, C.selectCoins K V w nFeeRet (add64 nValue nFeeRet) = ret ∧ ret.fRet = true ∧
      C.withChange nFeeRet (sub64 (sub64 ret.nValueRet nValue) nFeeRet)
        (vecSend.map fun s => ⟨s.2, s.1⟩) = some vout ∧
      SameButScripts (C.unsigned (C.arrange ret.setCoinsRet) vout) wtx := by
  unfold round at h
  dsimp only at h
  split_ifs at h with hret
  · cases h
  split at h
  · cases h
  next vout hvout =>
    split at h
    · cases h
    next wtxNew hsign =>
      split_ifs at h
      · cases h
      · cases h
        exact ⟨_, vout, rfl, by simpa using hret, hvout, C.sign_frame _ _ _ _ hsign⟩

/-- The last round pays the fee that it requires. -/
theorem createLoop_spec {start : ℤ}
    (h : C.createLoop K V w vecSend nValue rounds start = some (.ok (some (wtx, nFeeRet)))) :
    C.round K V w vecSend nValue nFeeRet = .ok (some wtx) ∧
      requiredFee C.nTransactionFee wtx.serSize ≤ nFeeRet := by
  induction rounds generalizing start with
  | zero => cases h
  | succ rounds ih =>
    rw [Sending.createLoop] at h
    cases hround : C.round K V w vecSend nValue start with
    | error e =>
      rw [hround] at h
      cases h
    | ok made =>
      cases made with
      | none =>
        rw [hround] at h
        cases h
      | some wtxNew =>
        rw [hround] at h
        dsimp only at h
        split_ifs at h with hlow
        · exact ih h
        · cases h
          exact ⟨hround, not_lt.1 hlow⟩

theorem Sending.withChange_spec {nChange : ℤ} {vout vout' : List CTxOut}
    (h : C.withChange nFeeRet nChange vout = some vout') (hnonneg : 0 ≤ nChange) :
    ∃ change : Option CTxOut, vout'.Perm (vout ++ change.toList) ∧
      (∀ txout, change = some txout → 0 < txout.nValue) ∧
      (change.toList.map CTxOut.nValue).sum = nChange := by
  unfold withChange at h
  split_ifs at h with hpos
  · obtain ⟨scriptChange, -, rfl⟩ := Option.map_eq_some_iff.1 h
    refine ⟨some ⟨nChange, scriptChange⟩, ?_, fun txout heq => Option.some.inj heq ▸ hpos,
      add_zero nChange⟩
    exact (perm_insertIdx _ _ (C.position_le nFeeRet vout.length)).trans
      (perm_append_singleton _ _).symm
  · obtain rfl := Option.some.inj h
    refine ⟨none, by rw [Option.toList_none, append_nil], fun _ heq => (by cases heq), ?_⟩
    exact le_antisymm hnonneg (not_lt.1 hpos)

/-! ### Balance -/

/-- A balanced payment: its inputs are different own outputs that are not spent; its outputs are the
payments and at most one more, the change, of positive value; the inputs are worth the payments, the
change and the fee; and the fee is enough for the size. -/
structure Balanced (K : Keystore) (w : Wallet) (nTransactionFee : ℤ) (vecSend : List (CScript × ℤ))
    (wtx : CTransaction) (nFeeRet : ℤ) : Prop where
  distinct : (wtx.vin.map CTxIn.prevout).Nodup
  own : ∀ txin ∈ wtx.vin, ∃ out, w.Offers K out ∧ out.prevout = txin.prevout
  outputs : ∃ change : Option CTxOut,
    wtx.vout.Perm (vecSend.map (fun s => ⟨s.2, s.1⟩) ++ change.toList) ∧
    (∀ txout, change = some txout → 0 < txout.nValue) ∧
    w.inputValue wtx = (vecSend.map Prod.snd).sum + (change.toList.map CTxOut.nValue).sum + nFeeRet
  payFee : nTransactionFee * (1 + (wtx.serSize : ℤ) / 1000) ≤ nFeeRet
  minFee : getMinFee 1 wtx.serSize ≤ nFeeRet

theorem paymentTotal64_eq (h : ∀ s ∈ vecSend, 0 ≤ s.2) (hstart : 0 ≤ nValue)
    (hfits : nValue + (vecSend.map Prod.snd).sum < 9223372036854775808) :
    paymentTotal64 nValue vecSend = some (nValue + (vecSend.map Prod.snd).sum) := by
  induction vecSend generalizing nValue with
  | nil =>
    rw [paymentTotal64, if_neg (not_lt.2 hstart)]
    exact congrArg some (add_zero nValue).symm
  | cons s vecSend ih =>
    have hs := h s mem_cons_self
    have hrest := fun s' hs' => h s' (mem_cons_of_mem s hs')
    have hsum : 0 ≤ (vecSend.map Prod.snd).sum := sum_nonneg fun n hn => by
      obtain ⟨s', hs', rfl⟩ := mem_map.1 hn
      exact hrest s' hs'
    rw [map_cons, sum_cons] at hfits
    have hadd : add64 nValue s.2 = nValue + s.2 := wrap64_of_range (by omega) (by omega)
    rw [paymentTotal64, if_neg (not_lt.2 hstart), hadd, ih hrest (by omega) (by omega),
      map_cons, sum_cons, add_assoc]

theorem getMinFee_one_pos {nBytes : ℕ} (h : nBytes < maxStandardTxSize) :
    0 < getMinFee 1 nBytes := by
  have hmax : maxStandardTxSize = 1500000 := by decide
  have hfee : mul64 (1 + (nBytes : ℤ) / 1000) minTxFee = (1 + (nBytes : ℤ) / 1000) * 10000 :=
    wrap64_of_range (by rw [minTxFee]; omega) (by rw [minTxFee]; omega)
  rw [getMinFee_one, hfee]
  split_ifs
  · omega
  · decide

theorem Wallet.inputValue_eq (w : Wallet) (tx : CTransaction) :
    w.inputValue tx = ((tx.vin.map CTxIn.prevout).map w.valueAt).sum := by
  rw [inputValue, map_map]
  rfl

/-- What a round makes is balanced, if neither sum overflows. -/
theorem Sending.round_balanced (hcontract : C.MeetsContract V) (hmin : 0 ≤ K.nMinimumInputValue)
    (hown : w.ownValue K < 2 ^ 63 - cent) (hpay : 0 ≤ (vecSend.map Prod.snd).sum)
    (hround : C.round K V w vecSend (vecSend.map Prod.snd).sum nFeeRet = .ok (some wtx))
    (hfee : requiredFee C.nTransactionFee wtx.serSize ≤ nFeeRet)
    (hfits : (vecSend.map Prod.snd).sum + nFeeRet < 2 ^ 63)
    (hproduct : C.nTransactionFee * (1 + (wtx.serSize : ℤ) / 1000) < 2 ^ 63) :
    Balanced K w C.nTransactionFee vecSend wtx nFeeRet := by
  obtain ⟨hpayFee, hminFee⟩ := max_le_iff.1 hfee
  have hpos := getMinFee_one_pos (round_size hround)
  generalize htotal : (vecSend.map Prod.snd).sum = nValue at *
  have htarget : add64 nValue nFeeRet = nValue + nFeeRet :=
    wrap64_of_range (by omega) (by omega)
  obtain ⟨ret, vout, hselect, hret, hchange, hframe⟩ := round_spec hround
  have hreaches := selectCoins_reaches nFeeRet (add64 nValue nFeeRet) hcontract hmin hown
    (by omega) (by omega) (by rw [hselect]; exact hret)
  rw [hselect] at hreaches
  have hprevouts : (wtx.vin.map CTxIn.prevout).Perm (ret.setCoinsRet.map COutput.prevout) := by
    rw [hframe.prevouts, unsigned, map_map]
    exact (C.arrange_perm ret.setCoinsRet).map COutput.prevout
  have hoffers : ∀ out ∈ ret.setCoinsRet, w.Offers K out := fun out hout =>
    Wallet.offers_of_mem (hreaches.subset out hout)
  have hinput : w.inputValue wtx = ret.nValueRet := by
    rw [w.inputValue_eq, (hprevouts.map w.valueAt).sum_eq, hreaches.nValueRet, map_map]
    exact congrArg List.sum (map_congr_left fun out hout => (hoffers out hout).valueAt)
  have hownOutputs : ∀ o ∈ wtx.vin.map CTxIn.prevout, ∃ out, w.Offers K out ∧ out.prevout = o := by
    intro o ho
    obtain ⟨out, hout, rfl⟩ := mem_map.1 (hprevouts.mem_iff.1 ho)
    exact ⟨out, hoffers out hout, rfl⟩
  have hdistinct := hprevouts.nodup_iff.2 hreaches.distinct
  have hle := Wallet.sum_valueAt_le V hmin hdistinct hownOutputs
  rw [← w.inputValue_eq, hinput] at hle
  have hcent : cent = 1000000 := by decide
  have hreach := hreaches.target
  have hleft : sub64 (sub64 ret.nValueRet nValue) nFeeRet = ret.nValueRet - nValue - nFeeRet := by
    have hfirst : sub64 ret.nValueRet nValue = ret.nValueRet - nValue :=
      wrap64_of_range (by omega) (by omega)
    rw [hfirst]
    exact wrap64_of_range (by omega) (by omega)
  obtain ⟨change, hperm, hpositive, hvalue⟩ := withChange_spec hchange (by omega)
  constructor
  · exact hdistinct
  · exact fun txin hin => hownOutputs _ (mem_map_of_mem hin)
  · refine ⟨change, by rw [hframe.vout]; exact hperm, hpositive, ?_⟩
    omega
  · rw [mul64] at hpayFee
    by_cases hlow : -9223372036854775808 ≤ C.nTransactionFee * (1 + (wtx.serSize : ℤ) / 1000)
    · rw [wrap64_of_range hlow hproduct] at hpayFee
      exact hpayFee
    · omega
  · exact hminFee

theorem Balanced.fits (V : CoinView) (hmin : 0 ≤ K.nMinimumInputValue)
    (hown : w.ownValue K < 2 ^ 63 - cent) (hpay : 0 ≤ (vecSend.map Prod.snd).sum)
    (h : Balanced K w nTransactionFee vecSend wtx nFeeRet) :
    (vecSend.map Prod.snd).sum + nFeeRet < 2 ^ 63 ∧
      nTransactionFee * (1 + (wtx.serSize : ℤ) / 1000) < 2 ^ 63 := by
  obtain ⟨change, -, hpositive, hsum⟩ := h.outputs
  have hchange : 0 ≤ (change.toList.map CTxOut.nValue).sum := sum_nonneg fun n hn => by
    obtain ⟨txout, hout, rfl⟩ := mem_map.1 hn
    exact (hpositive txout (Option.mem_toList.1 hout)).le
  have hle := Wallet.sum_valueAt_le V hmin h.distinct fun o ho => by
    obtain ⟨txin, hin, rfl⟩ := mem_map.1 ho
    exact h.own txin hin
  rw [← w.inputValue_eq] at hle
  have hcent : cent = 1000000 := by decide
  have hfee := h.payFee
  constructor <;> omega

/-- **`CreateTransaction` balances.**  For payments of less than `2 ^ 63` in total, the loop ends
within 1501 rounds.  What it makes is balanced if and only if the payments and the fee of the last
round, and the fee for the size, do not overflow. -/
theorem createTransaction_balances_iff (C : Sending) (K : Keystore) (V : CoinView) (w : Wallet)
    (vecSend : List (CScript × ℤ)) (hcontract : C.MeetsContract V)
    (hmin : 0 ≤ K.nMinimumInputValue) (hown : w.ownValue K < 2 ^ 63 - cent) (hne : vecSend ≠ [])
    (hpay : ∀ s ∈ vecSend, 0 ≤ s.2) (htotal : (vecSend.map Prod.snd).sum < 2 ^ 63) :
    (∀ rounds, 1501 ≤ rounds → (C.createTransaction K V w vecSend rounds).isSome) ∧
    ∀ rounds wtx nFeeRet,
      C.createTransaction K V w vecSend rounds = some (.ok (some (wtx, nFeeRet))) →
      (Balanced K w C.nTransactionFee vecSend wtx nFeeRet ↔
        (vecSend.map Prod.snd).sum + nFeeRet < 2 ^ 63 ∧
          C.nTransactionFee * (1 + (wtx.serSize : ℤ) / 1000) < 2 ^ 63) := by
  have hsum : 0 ≤ (vecSend.map Prod.snd).sum := sum_nonneg fun n hn => by
    obtain ⟨s, hs, rfl⟩ := mem_map.1 hn
    exact hpay s hs
  have hvalue := paymentTotal64_eq hpay le_rfl (by rw [zero_add]; exact htotal)
  have hempty : ¬ vecSend.isEmpty = true := by rwa [List.isEmpty_iff]
  rw [zero_add] at hvalue
  constructor
  · intro rounds hrounds
    rw [Sending.createTransaction, hvalue]
    have hcard : (tooLow C.nTransactionFee C.nTransactionFee).card ≤ 1500 :=
      (Finset.card_filter_le _ _).trans_eq (Finset.card_range 1500)
    split_ifs
    · exact createLoop_terminates (by omega)
    · rfl
  · intro rounds wtx nFeeRet h
    rw [Sending.createTransaction, hvalue] at h
    split_ifs at h
    · obtain ⟨hround, hfee⟩ := createLoop_spec h
      exact ⟨fun hbalanced => hbalanced.fits V hmin hown hsum, fun hfits =>
        Sending.round_balanced hcontract hmin hown hsum hround hfee hfits.1 hfits.2⟩
    · cases h

/-! ### The savings are sent -/

/-- `SelectCoinsMinConf` for targets that do not overflow. -/
def boundedSelect (V : CoinView) (nTargetValue : ℤ) (nSpendTime : ℕ) (nConfMine nConfTheirs : ℤ)
    (vCoins : List COutput) : Selected :=
  if nTargetValue + cent < 2 ^ 63 then
    selectCoinsMinConf64 V .plain .plain nTargetValue nSpendTime nConfMine nConfTheirs vCoins
  else .clear

namespace Simnet

/-- A payment by the wallet with the savings. -/
def savingsSending (coinControl : List COutPoint) : Sending where
  nTransactionFee := minTxFee
  nBestHeight := 700000
  nTime := 8018
  coinControl := coinControl
  lockBack := none
  selectMinConf _ _ := boundedSelect saver.view
  arrange := id
  arrange_perm := List.Perm.refl
  scriptChange _ := some OneKey.payToKey
  position _ n := n
  position_le _ _ := le_rfl
  sign _ setCoins tx := (signInputs OneKey.env OneKey.store setCoins 0 tx).toOption
  sign_frame _ setCoins tx tx' h := by
    cases hsign : signInputs OneKey.env OneKey.store setCoins 0 tx with
    | error e =>
      rw [hsign] at h
      cases h
    | ok signed =>
      rw [hsign] at h
      obtain rfl := Option.some.inj h
      exact signInputs_sameButScripts hsign

theorem savingsSending_contract (coinControl : List COutPoint) :
    (savingsSending coinControl).MeetsContract saver.view := by
  intro nFeeRet i nTargetValue nSpendTime nConfMine nConfTheirs vCoins hdistinct hnonneg htotal hpos
    htarget
  change SelectsCoins _ _ _ _ _ _ (boundedSelect _ _ _ _ _ _)
  rw [boundedSelect]
  split_ifs with hfits
  · exact selectCoinsMinConf64_of_fits hdistinct hnonneg htotal hpos hfits
  · exact .clear ((totalValue_filter_le hnonneg).trans_lt (by omega))

/-- The savings pay to their own script. -/
def sendSavings (coinControl : List COutPoint) (nValue : ℤ) :
    Option (Except Stop (Option (CTransaction × ℤ))) :=
  (savingsSending coinControl).createTransaction saver.ismine saver.view saver.wallet
    [(OneKey.payToKey, nValue)] 2

/-- A payment that is made. -/
theorem exists_sendSavings {coinControl : List COutPoint} {nValue : ℤ}
    (h : ((sendSavings coinControl nValue).any fun r => r.toOption.any fun made => made.any
      fun made => decide (made.2 = minTxFee) && decide (made.1.serSize < 1000)) = true) :
    ∃ wtx, sendSavings coinControl nValue = some (.ok (some (wtx, minTxFee))) ∧
      wtx.serSize < 1000 := by
  cases hmade : sendSavings coinControl nValue with
  | none => simp [hmade] at h
  | some r =>
    cases r with
    | error e => simp [hmade, Except.toOption] at h
    | ok made =>
      cases made with
      | none => simp [hmade, Except.toOption] at h
      | some made =>
        obtain ⟨wtx, nFeeRet⟩ := made
        have hq : nFeeRet = minTxFee ∧ wtx.serSize < 1000 := by
          simpa [hmade, Except.toOption] using h
        exact ⟨wtx, by rw [hq.1], hq.2⟩

end Simnet

open Simnet

/-- Three coins are sent from the savings. -/
theorem createTransaction_balances_savings :
    ∃ wtx, sendSavings [] (3 * coin) = some (.ok (some (wtx, minTxFee))) ∧
      Balanced saver.ismine saver.wallet minTxFee [(OneKey.payToKey, 3 * coin)] wtx
        minTxFee := by
  obtain ⟨wtx, hmade, hsize⟩ := @exists_sendSavings [] (3 * coin) (by decide +kernel)
  refine ⟨wtx, hmade, ((createTransaction_balances_iff _ _ _ _ _
    (savingsSending_contract []) (by decide) (by decide) (by decide) (by decide)
    (by decide)).2 _ _ _ hmade).2 ⟨by decide, ?_⟩⟩
  change minTxFee * (1 + (wtx.serSize : ℤ) / 1000) < 2 ^ 63
  rw [minTxFee]
  omega

/-- Nearly `2 ^ 63` are sent from the savings, which the user has selected: with the fee the target
is negative, and a coin of 100 is enough for it. -/
theorem createTransaction_short : (savingsSending [⟨1, 1⟩]).MeetsContract saver.view ∧
    ∃ wtx, sendSavings [⟨1, 1⟩] (2 ^ 63 - 1) = some (.ok (some (wtx, minTxFee))) ∧
      ¬ Balanced saver.ismine saver.wallet minTxFee
        [(OneKey.payToKey, 2 ^ 63 - 1)] wtx minTxFee := by
  obtain ⟨wtx, hmade, -⟩ := @exists_sendSavings [⟨1, 1⟩] (2 ^ 63 - 1) (by decide +kernel)
  refine ⟨savingsSending_contract _, wtx, hmade, fun hbalanced => ?_⟩
  have hfits := (hbalanced.fits saver.view (by decide) (by decide) (by decide)).1
  exact absurd hfits (by decide)

end Espers
