import Espers.Stake.CoinStake
import Espers.Wallet.Select

/-!
# The credit of a coinstake

`CreateCoinStake` searches for a kernel backward in time, adds coins of the same script, and credits
their value and the reward, in `int64_t`.

* `stakeDraft64_credited` : a draft spends coins on offer, each once; its credit is their value
  modulo `2 ^ 64` and within the balance; its first coin is a kernel at its time.
* `stakeDraft64_eq` : without an overflow the draft is that of `stakeDraft`.
* `StakeDraft.valueOut_paid_shape` : every shape of the outputs pays the credit.
* `createCoinStake_pays_iff` : **the coinstake pays exactly the reward for its age and the fees if
  and only if the value of its coins and the reward add up in 64 bits.**
-/

namespace Espers

open Exec List Int Except Kernel
open Option (some)

/-! ### With the arithmetic of the source -/

/-- `txNew.nTime - n`, as an `unsigned int`. -/
def backTime (nTime n : ℕ) : ℕ := (nTime + 2 ^ 32 - n) % 2 ^ 32

/-- The loop of `SelectCoinsForStaking`. -/
def takeForStaking64 (nTargetValue : ℤ) : List COutput → List COutput × ℤ → List COutput
  | [], ret => ret.1
  | out :: vCoins, ret =>
    if ret.2 ≥ nTargetValue then ret.1
    else if out.nValue ≥ nTargetValue then ret.1 ++ [out]
    else if out.nValue < add64 nTargetValue cent then
      takeForStaking64 nTargetValue vCoins (ret.1 ++ [out], add64 ret.2 out.nValue)
    else takeForStaking64 nTargetValue vCoins ret

/-- The search for a kernel backward in time: the time that fits, and that of the block. -/
def searchKernel64 (C : StakeContext) (prevout : COutPoint) : ℕ → ℕ → Option (ℕ × ℤ)
  | _, 0 => none
  | n, rounds + 1 =>
    match C.checkKernel prevout (backTime C.nTime n) with
    | some nBlockTime => some (backTime C.nTime n, nBlockTime)
    | none => searchKernel64 C prevout (n + 1) rounds

/-- The first loop of `CreateCoinStake`: the first coin that is a kernel whose script is supported,
with its time, the time of its block, and the script that is paid to. -/
def findKernel64 (C : StakeContext) : List COutput → Option (COutput × ℕ × ℤ × CScript)
  | [] => none
  | out :: setCoins =>
    match searchKernel64 C out.prevout 0 (min C.nSearchInterval 60).toNat with
    | none => findKernel64 C setCoins
    | some (nTime, nBlockTime) =>
      match C.stakeScript out.txout.scriptPubKey with
      | none => findKernel64 C setCoins
      | some scriptPubKeyOut => some (out, nTime, nBlockTime, scriptPubKeyOut)

/-- The second loop of `CreateCoinStake`: coins of the same script are combined. -/
def combineCoins64 (V : CoinView) (C : StakeContext) (kernel : COutput) (scriptPubKeyOut : CScript)
    (nTime : ℕ) : List COutput → List COutput × ℤ → List COutput × ℤ
  | [], ret => ret
  | out :: setCoins, ret =>
    if (out.txout.scriptPubKey = kernel.txout.scriptPubKey ∨
        out.txout.scriptPubKey = scriptPubKeyOut) ∧ out.hash ≠ kernel.hash then
      if ret.1.length ≥ 100 then ret
      else if ret.2 ≥ C.nStakeCombineThreshold then ret
      else if add64 ret.2 out.nValue > sub64 C.nBalance C.nReserveBalance then ret
      else if out.nValue ≥ C.nStakeCombineThreshold then
        combineCoins64 V C kernel scriptPubKeyOut nTime setCoins ret
      else if !V.isProtocolV3 nTime ∧ V.getWeight out.tx.nTime nTime < V.nStakeMinAge then
        combineCoins64 V C kernel scriptPubKeyOut nTime setCoins ret
      else combineCoins64 V C kernel scriptPubKeyOut nTime setCoins
        (ret.1 ++ [out], add64 ret.2 out.nValue)
    else combineCoins64 V C kernel scriptPubKeyOut nTime setCoins ret

/-- `CreateCoinStake` up to the coin age. -/
def stakeDraft64 (K : Keystore) (V : CoinView) (w : Wallet) (C : StakeContext) :
    Option StakeDraft :=
  if C.nBalance ≤ C.nReserveBalance then none
  else
    let nTargetValue := sub64 C.nBalance C.nReserveBalance
    let setCoins := C.arrange (takeForStaking64 nTargetValue (w.stakeable K V C.nTime) ([], 0))
    match findKernel64 C setCoins with
    | none => none
    | some (kernel, nTime, nBlockTime, scriptPubKeyOut) =>
      if kernel.nValue = 0 ∨ kernel.nValue > nTargetValue then none
      else if V.getWeight nBlockTime nTime < C.nStakeSplitAge ∨
        kernel.nValue > C.nStakeSplitThreshold then
        some ⟨nTime, [kernel], kernel.nValue, true, kernel.txout.scriptPubKey, scriptPubKeyOut⟩
      else
        let ret := combineCoins64 V C kernel scriptPubKeyOut nTime setCoins
          ([kernel], kernel.nValue)
        some ⟨nTime, ret.1, ret.2, false, kernel.txout.scriptPubKey, scriptPubKeyOut⟩

/-- `CWallet::CreateCoinStake`: the coinstake and the key of its kernel. -/
def Staker.createCoinStake64 (s : Staker) (E : Env) (S : SignEnv) (K : Kernel.Params)
    (w : World) (ctx : Ctx) (nBits : ℕ) (nSearchInterval nFees : ℤ) (nTime : ℕ) :
    Except Stop (CTransaction × CKey) :=
  match w.pindexBest with
  | none => .error (.crash "null pointer")
  | some p =>
    match w.mapBlockIndex.lookup p with
    | none => .error (.crash "null pointer")
    | some best =>
      match stakeDraft64 s.ismine s.view s.wallet
        (s.context E S K w ctx p nBits nTime nSearchInterval) with
      | none => .error .refuse
      | some d =>
        match kernelKey S s.keystore d.scriptPubKeyKernel with
        | none => .error .refuse
        | some (key, _) => do
          let nCoinAge ← (getCoinAge E w ctx w.txdb.fresh (some p) d.tx).mapError <|
            Stop.report (.error "CreateCoinStake : failed to calculate coin age")
          let nReward := getProofOfStakeReward best.nHeight best.nMoneySupply
            (wrap64 nCoinAge) nFees
          rejectIf (nReward ≤ 0) .refuse
          rejectIf (bXnodePayment ctx.getTime ∧ s.payee = none)
            (.error "CreateCoinStake: Failed to detect xnode to pay\n")
          let payee := if bXnodePayment ctx.getTime then s.payee else none
          let txNew ← signInputs S s.keystore d.coins 0 <|
            d.paid payee (add64 d.nCredit nReward) (getXNodePayment (best.nHeight + 1) nReward)
          rejectIf (txNew.getSerializeSize ≥ maxBlockSizeGen / 5)
            (.error "CreateCoinStake : exceeded coinstake size limit")
          .ok (txNew, key)

/-! ### The coins of a draft -/

variable {K : Keystore} {V : CoinView} {wallet : Wallet} {C : StakeContext} {d : StakeDraft}
  {kernel : COutput} {script : CScript} {nTime : ℕ} {setCoins vCoins : List COutput}

variable {ret : List COutput × ℤ}

theorem takeForStaking64_sublist {nTargetValue : ℤ} :
    (takeForStaking64 nTargetValue vCoins ret).Sublist (ret.1 ++ vCoins) := by
  induction vCoins generalizing ret with
  | nil => rw [takeForStaking64, append_nil]
  | cons out vCoins ih =>
    have hkeep : (ret.1 ++ vCoins).Sublist (ret.1 ++ out :: vCoins) :=
      (sublist_cons_self out vCoins).append_left ret.1
    have hsnoc : ret.1 ++ out :: vCoins = (ret.1 ++ [out]) ++ vCoins := append_cons _ _ _
    rw [takeForStaking64]
    split_ifs
    · exact sublist_append_left _ _
    · rw [hsnoc]
      exact sublist_append_left _ _
    · rw [hsnoc]
      exact ih
    · exact ih.trans hkeep

/-- A kernel is one of the coins, and fits at its time. -/
theorem findKernel64_spec {nBlockTime : ℤ}
    (h : findKernel64 C setCoins = some (kernel, nTime, nBlockTime, script)) :
    kernel ∈ setCoins ∧ C.checkKernel kernel.prevout nTime = some nBlockTime := by
  have hsearch : ∀ prevout rounds n found, searchKernel64 C prevout n rounds = some found →
      C.checkKernel prevout found.1 = some found.2 := by
    intro prevout rounds
    induction rounds with
    | zero => exact fun _ _ hfound => by cases hfound
    | succ rounds ih =>
      intro n found hfound
      rw [searchKernel64] at hfound
      cases hcheck : C.checkKernel prevout (backTime C.nTime n) with
      | none =>
        simp only [hcheck] at hfound
        exact ih _ _ hfound
      | some t =>
        simp only [hcheck, some.injEq] at hfound
        rw [← hfound]
        exact hcheck
  induction setCoins with
  | nil => cases h
  | cons out setCoins ih =>
    rw [findKernel64] at h
    cases hfound : searchKernel64 C out.prevout 0 (min C.nSearchInterval 60).toNat with
    | none =>
      simp only [hfound] at h
      exact (ih h).imp_left (mem_cons_of_mem _)
    | some found =>
      simp only [hfound] at h
      cases hscript : C.stakeScript out.txout.scriptPubKey with
      | none =>
        simp only [hscript] at h
        exact (ih h).imp_left (mem_cons_of_mem _)
      | some scriptPubKeyOut =>
        simp only [hscript] at h
        obtain ⟨rfl, rfl, rfl, -⟩ := h
        exact ⟨mem_cons_self, hsearch _ _ _ _ hfound⟩

/-- The coins that are combined are of other transactions than the kernel. -/
theorem combineCoins64_sublist :
    ∃ more, (combineCoins64 V C kernel script nTime setCoins ret).1 = ret.1 ++ more ∧
      more.Sublist (setCoins.filter fun out => decide (out.hash ≠ kernel.hash)) := by
  induction setCoins generalizing ret with
  | nil => exact ⟨[], (append_nil _).symm, nil_sublist _⟩
  | cons out setCoins ih =>
    have hstop : ∃ more, ret.1 = ret.1 ++ more ∧
        more.Sublist ((out :: setCoins).filter fun out => decide (out.hash ≠ kernel.hash)) :=
      ⟨[], (append_nil _).symm, nil_sublist _⟩
    have hskip : ∃ more, (combineCoins64 V C kernel script nTime setCoins ret).1 = ret.1 ++ more ∧
        more.Sublist ((out :: setCoins).filter fun out => decide (out.hash ≠ kernel.hash)) := by
      obtain ⟨more, hmore, hsub⟩ := @ih ret
      exact ⟨more, hmore, hsub.trans ((sublist_cons_self out setCoins).filter _)⟩
    rw [combineCoins64]
    split_ifs with hscript
    · exact hstop
    · exact hstop
    · exact hstop
    · exact hskip
    · exact hskip
    · obtain ⟨more, hmore, hsub⟩ := @ih (ret.1 ++ [out], add64 ret.2 out.nValue)
      refine ⟨out :: more, by rw [hmore, append_assoc]; rfl, ?_⟩
      have hother : (out :: setCoins).filter (fun out => decide (out.hash ≠ kernel.hash)) =
          out :: setCoins.filter fun out => decide (out.hash ≠ kernel.hash) :=
        filter_cons_of_pos (p := fun out : COutput => decide (out.hash ≠ kernel.hash))
          (decide_eq_true hscript.2)
      rw [hother]
      exact hsub.cons_cons out
    · exact hskip

/-- The running credit is the value of the coins modulo `2 ^ 64`, and within the balance. -/
theorem combineCoins64_credit (h : ret.2 = wrap64 (totalValue ret.1))
    (hle : ret.2 ≤ sub64 C.nBalance C.nReserveBalance) :
    (combineCoins64 V C kernel script nTime setCoins ret).2 =
        wrap64 (totalValue (combineCoins64 V C kernel script nTime setCoins ret).1) ∧
      (combineCoins64 V C kernel script nTime setCoins ret).2 ≤
        sub64 C.nBalance C.nReserveBalance := by
  induction setCoins generalizing ret with
  | nil => exact ⟨h, hle⟩
  | cons out setCoins ih =>
    rw [combineCoins64]
    split_ifs with _ _ _ hlimit
    · exact ⟨h, hle⟩
    · exact ⟨h, hle⟩
    · exact ⟨h, hle⟩
    · exact ih h hle
    · exact ih h hle
    · refine ih ?_ (not_lt.1 hlimit)
      rw [h, totalValue_concat, add64, wrap64_wrap_add]
    · exact ih h hle

/-- A draft that can be paid: its coins are on offer, each once; the credit is their value modulo
`2 ^ 64` and within the balance; the first of them is a kernel at the time of the draft. -/
structure StakeDraft.Credited (d : StakeDraft) (C : StakeContext) (vCoins : List COutput) :
    Prop where
  balance : C.nReserveBalance < C.nBalance
  subperm : d.coins.Subperm vCoins
  credit : d.nCredit = wrap64 (totalValue d.coins)
  reserve : d.nCredit ≤ sub64 C.nBalance C.nReserveBalance
  kernel : ∃ kernel coins nBlockTime, d.coins = kernel :: coins ∧
    C.checkKernel kernel.prevout d.nTime = some nBlockTime

theorem stakeDraft64_credited (hnonneg : ∀ out ∈ wallet.stakeable K V C.nTime, 0 ≤ out.nValue)
    (h : stakeDraft64 K V wallet C = some d) :
    d.Credited C (wallet.stakeable K V C.nTime) := by
  have hdistinct : ((wallet.stakeable K V C.nTime).map COutput.prevout).Nodup := Wallet.nodup_offer
  unfold stakeDraft64 at h
  dsimp only at h
  have hset : (C.arrange (takeForStaking64 (sub64 C.nBalance C.nReserveBalance)
      (wallet.stakeable K V C.nTime) ([], 0))).Subperm (wallet.stakeable K V C.nTime) :=
    (C.arrange_perm _).subperm.trans takeForStaking64_sublist.subperm
  generalize C.arrange _ = setCoins at h hset
  split_ifs at h with hbalance
  rw [not_le] at hbalance
  cases hfind : findKernel64 C setCoins with
  | none => simp only [hfind, reduceCtorEq] at h
  | some found =>
    obtain ⟨kernel, nTime, nBlockTime, script⟩ := found
    obtain ⟨hmem, hcheck⟩ := findKernel64_spec hfind
    simp only [hfind] at h
    have hpos := hnonneg kernel (hset.subset hmem)
    have hkernel : [kernel].Subperm setCoins := singleton_subperm_iff.2 hmem
    split_ifs at h with hvalue
    all_goals
      rw [not_or, not_lt] at hvalue
      have hrange := wrap64_range (C.nBalance - C.nReserveBalance)
      have hcredit : kernel.nValue = wrap64 (totalValue [kernel]) := by
        rw [totalValue_singleton, wrap64_of_range (by omega)]
        exact hvalue.2.trans_lt hrange.2
    · obtain rfl := some.inj h
      exact ⟨hbalance, hkernel.trans hset, hcredit, hvalue.2, kernel, [], nBlockTime, rfl, hcheck⟩
    · obtain rfl := some.inj h
      obtain ⟨more, hmore, hsub⟩ := @combineCoins64_sublist V C kernel script nTime setCoins
        ([kernel], kernel.nValue)
      obtain ⟨hsum, hlimit⟩ := @combineCoins64_credit V C kernel script nTime setCoins
        ([kernel], kernel.nValue) hcredit hvalue.2
      -- the kernel is not combined with itself
      have hnodup := nodup_prevout_of_subperm hset hdistinct
      have hall : (kernel :: more).Subperm setCoins := by
        refine subperm_of_subset (nodup_cons.2 ⟨fun hin => ?_, ?_⟩) ?_
        · simpa using (mem_filter.1 (hsub.subset hin)).2
        · exact (hnodup.of_map _).sublist (hsub.trans filter_sublist)
        · exact cons_subset.2 ⟨hmem, fun out hin => mem_of_mem_filter (hsub.subset hin)⟩
      refine ⟨hbalance, ?_, hsum, hlimit, kernel, more, nBlockTime, hmore, hcheck⟩
      rw [hmore]
      exact hall.trans hset

/-! ### Without an overflow -/

theorem backTime_eq {n : ℕ} (hn : n ≤ nTime) (htime : nTime < 2 ^ 32) :
    backTime nTime n = nTime - n := by
  rw [backTime]
  omega

theorem takeForStaking64_eq {nTargetValue : ℤ}
    (hcent : add64 nTargetValue cent = nTargetValue + cent)
    (hnonneg : ∀ out ∈ vCoins, 0 ≤ out.nValue) (hret : 0 ≤ ret.2)
    (htotal : ret.2 + totalValue vCoins < 9223372036854775808) :
    takeForStaking64 nTargetValue vCoins ret = (takeForStaking nTargetValue vCoins ret).1 := by
  induction vCoins generalizing ret with
  | nil => rfl
  | cons out vCoins ih =>
    have hout := hnonneg out mem_cons_self
    have hrest := fun out' h => hnonneg out' (mem_cons_of_mem _ h)
    have hnext := totalValue_nonneg hrest
    rw [totalValue_cons] at htotal
    have hadd : add64 ret.2 out.nValue = ret.2 + out.nValue :=
      wrap64_of_range (by omega) (by omega)
    rw [takeForStaking64, takeForStaking, hcent, hadd]
    split_ifs with _ _ hless
    · rfl
    · rfl
    · exact ih hrest (by dsimp only; omega) (by dsimp only; omega)
    · -- less than the target, but not less than the target and a cent
      unfold cent at hless
      omega

theorem searchKernel64_eq {prevout : COutPoint} {n rounds : ℕ} (hn : n + rounds ≤ C.nTime + 1)
    (htime : C.nTime < 2 ^ 32) :
    searchKernel64 C prevout n rounds =
      (searchKernel C prevout n rounds).map fun found => (C.nTime - found.1, found.2) := by
  induction rounds generalizing n with
  | zero => rfl
  | succ rounds ih =>
    have hback := @backTime_eq C.nTime n (by omega) htime
    have hcast : ((C.nTime - n : ℕ) : ℤ) = C.nTime - n := by omega
    rw [searchKernel64, searchKernel, hback, hcast]
    cases C.checkKernel prevout (C.nTime - n) with
    | none => exact ih (by omega)
    | some t => rfl

theorem findKernel64_eq (hearly : 60 ≤ C.nTime) (htime : C.nTime < 2 ^ 32) :
    findKernel64 C setCoins = (findKernel C setCoins).map fun found =>
      (found.1, C.nTime - found.2.1, found.2.2.1, found.2.2.2) := by
  induction setCoins with
  | nil => rfl
  | cons out setCoins ih =>
    have hrounds : 0 + (min C.nSearchInterval 60).toNat ≤ C.nTime + 1 := by omega
    rw [findKernel64, findKernel, searchKernel64_eq hrounds htime]
    cases searchKernel C out.prevout 0 (min C.nSearchInterval 60).toNat with
    | none => exact ih
    | some found =>
      cases C.stakeScript out.txout.scriptPubKey with
      | none => exact ih
      | some script => rfl

/-- No kernel is searched for more than a minute back. -/
theorem findKernel_lt {found : COutput × ℕ × ℤ × CScript} (h : findKernel C setCoins = some found) :
    found.2.1 < 60 := by
  have hsearch : ∀ prevout rounds n found, searchKernel C prevout n rounds = some found →
      found.1 < n + rounds := by
    intro prevout rounds
    induction rounds with
    | zero => exact fun _ _ hfound => by cases hfound
    | succ rounds ih =>
      intro n found hfound
      rw [searchKernel] at hfound
      cases hcheck : C.checkKernel prevout (C.nTime - n) with
      | none =>
        simp only [hcheck] at hfound
        have := ih _ _ hfound
        omega
      | some t =>
        simp only [hcheck, some.injEq] at hfound
        rw [← hfound]
        omega
  induction setCoins with
  | nil => cases h
  | cons out setCoins ih =>
    rw [findKernel] at h
    cases hfound : searchKernel C out.prevout 0 (min C.nSearchInterval 60).toNat with
    | none =>
      simp only [hfound] at h
      exact ih h
    | some found' =>
      have hlt := hsearch _ _ _ _ hfound
      simp only [hfound] at h
      cases hscript : C.stakeScript out.txout.scriptPubKey with
      | none =>
        simp only [hscript] at h
        exact ih h
      | some scriptPubKeyOut =>
        simp only [hscript, some.injEq] at h
        rw [← h]
        dsimp only
        omega

theorem combineCoins64_eq
    (hlimit : sub64 C.nBalance C.nReserveBalance = C.nBalance - C.nReserveBalance)
    (hnonneg : ∀ out ∈ setCoins, 0 ≤ out.nValue) (hret : 0 ≤ ret.2)
    (htotal : ret.2 + totalValue setCoins < 9223372036854775808) :
    combineCoins64 V C kernel script nTime setCoins ret =
      combineCoins V C kernel script nTime setCoins ret := by
  induction setCoins generalizing ret with
  | nil => rfl
  | cons out setCoins ih =>
    have hout := hnonneg out mem_cons_self
    have hrest := fun out' h => hnonneg out' (mem_cons_of_mem _ h)
    have hnext := totalValue_nonneg hrest
    rw [totalValue_cons] at htotal
    have hadd : add64 ret.2 out.nValue = ret.2 + out.nValue :=
      wrap64_of_range (by omega) (by omega)
    have hskip := @ih ret hrest hret (by omega)
    have htake := @ih (ret.1 ++ [out], ret.2 + out.nValue) hrest (by dsimp only; omega)
      (by dsimp only; omega)
    rw [combineCoins64, combineCoins, hadd, hlimit, hskip, htake, toNat_natCast]

/-- **Without an overflow, the draft is that of the algorithm on integers.** -/
theorem stakeDraft64_eq (hearly : 60 ≤ C.nTime) (htime : C.nTime < 2 ^ 32)
    (hreserve : 0 ≤ C.nReserveBalance) (hbalance : C.nBalance + cent < 9223372036854775808)
    (hnonneg : ∀ out ∈ wallet.stakeable K V C.nTime, 0 ≤ out.nValue)
    (htotal : 2 * totalValue (wallet.stakeable K V C.nTime) < 9223372036854775808) :
    stakeDraft64 K V wallet C = stakeDraft K V wallet C := by
  unfold stakeDraft64 stakeDraft
  by_cases hle : C.nBalance ≤ C.nReserveBalance
  · rw [if_pos hle, if_pos hle]
  have hcent : cent = 1000000 := by decide
  have hlimit : sub64 C.nBalance C.nReserveBalance = C.nBalance - C.nReserveBalance :=
    wrap64_of_range (by omega) (by omega)
  have hadd : add64 (C.nBalance - C.nReserveBalance) cent = C.nBalance - C.nReserveBalance + cent :=
    wrap64_of_range (by omega) (by omega)
  have htake : (selectCoinsForStaking K V wallet (C.nBalance - C.nReserveBalance) C.nTime).1 =
      takeForStaking64 (C.nBalance - C.nReserveBalance) (wallet.stakeable K V C.nTime) ([], 0) :=
    (takeForStaking64_eq hadd hnonneg le_rfl (by dsimp only; omega)).symm
  have hset : (C.arrange (takeForStaking64 (C.nBalance - C.nReserveBalance)
      (wallet.stakeable K V C.nTime) ([], 0))).Subperm (wallet.stakeable K V C.nTime) :=
    (C.arrange_perm _).subperm.trans takeForStaking64_sublist.subperm
  rw [if_neg hle, if_neg hle, htake]
  dsimp only
  rw [hlimit]
  generalize C.arrange _ = setCoins at hset
  have hnonneg' : ∀ out ∈ setCoins, 0 ≤ out.nValue := fun out h => hnonneg out (hset.subset h)
  have htotal' := totalValue_subperm hset hnonneg
  rw [findKernel64_eq hearly htime]
  cases hfind : findKernel C setCoins with
  | none => rfl
  | some found =>
    have hlt := findKernel_lt hfind
    have hmem := (findKernel64_spec
      ((findKernel64_eq hearly htime).trans (congrArg (Option.map _) hfind))).1
    obtain ⟨kernel, n, nBlockTime, script⟩ := found
    dsimp only at hlt hmem
    have hback : ((C.nTime - n : ℕ) : ℤ) = C.nTime - n := by omega
    have hnat : ((C.nTime : ℤ) - n).toNat = C.nTime - n := by omega
    have hkernel := nValue_le_totalValue hnonneg' hmem
    have hcombine := @combineCoins64_eq V C kernel script (C.nTime - n) setCoins
      ([kernel], kernel.nValue) hlimit hnonneg' (hnonneg' kernel hmem) (by dsimp only; omega)
    dsimp only [Option.map_some]
    rw [hback, hnat, hcombine, hback]

theorem stakeDraft64_eq_collateral :
    stakeDraft64 anyKeystore deepView collateralWallet (easyStaking collateral (2000 * coin) 60) =
      stakeDraft anyKeystore deepView collateralWallet (easyStaking collateral (2000 * coin) 60) :=
  stakeDraft64_eq (by decide) (by decide) (by decide) (by decide) (by decide) (by decide)

variable {blockValue nHeight nReward : ℤ}

theorem StakeDraft.valueOut_paid_shape (d : StakeDraft) (payee : Option CScript)
    (h : -9223372036854775808 ≤ blockValue ∧ blockValue < 9223372036854775808) :
    (d.paid payee blockValue (getXNodePayment nHeight nReward)).valueOut = blockValue := by
  have hhalf := stakeHalf_add h
  have hleft : sub64 blockValue 0 = blockValue := by
    rw [sub64, sub_zero]
    exact wrap64_of_range h.1 h.2
  cases payee with
  | none => exact d.valueOut_paid h
  | some script =>
    cases hsplit : d.fSplit with
    | false =>
      simp [paid, tx, stakeAmounts, setValue, hsplit, CTransaction.valueOut, getXNodePayment, hleft]
    | true =>
      simp [paid, tx, stakeAmounts, setValue, hsplit, CTransaction.valueOut, getXNodePayment, hleft,
        hhalf]

theorem stakeHalf_range {blockValue : ℤ} (h : 0 ≤ blockValue ∧ blockValue < 9223372036854775808) :
    0 ≤ stakeHalf blockValue ∧ 0 ≤ sub64 blockValue (stakeHalf blockValue) := by
  have hcent : cent = 1000000 := by decide
  have hhalf : 0 ≤ stakeHalf blockValue ∧ stakeHalf blockValue ≤ blockValue := by
    rw [stakeHalf, mul64, hcent, tdiv_eq_ediv_of_nonneg h.1,
      tdiv_eq_ediv_of_nonneg (by omega), wrap64_of_range (by omega) (by omega)]
    omega
  rw [sub64, wrap64_of_range (by omega) (by omega)]
  omega

theorem StakeDraft.nonneg_paid_shape (d : StakeDraft) (payee : Option CScript)
    (h : 0 ≤ blockValue ∧ blockValue < 9223372036854775808) :
    ∀ txout ∈ (d.paid payee blockValue (getXNodePayment nHeight nReward)).vout,
      0 ≤ txout.nValue := by
  have hhalf := stakeHalf_range h
  have hleft : sub64 blockValue 0 = blockValue := by
    rw [sub64, sub_zero]
    exact wrap64_of_range (by omega) h.2
  cases payee <;> cases hsplit : d.fSplit <;>
    simp [paid, tx, stakeAmounts, setValue, hsplit, getXNodePayment, hleft, hhalf, h.1]

theorem StakeDraft.head_paid_shape (d : StakeDraft) (payee : Option CScript)
    (blockValue xnodePayment : ℤ) :
    (d.paid payee blockValue xnodePayment).vout.head? = some ⟨0, []⟩ := by
  cases payee <;> cases hsplit : d.fSplit <;>
    simp [paid, tx, stakeAmounts, setValue, hsplit]

/-! ### What is promised -/

/-- What a coinstake is to be, for the fees `nFees` on the best block `best`: it is marked by an
empty output; its inputs are different ones within the balance that is not reserved, the first of
them a kernel at its time; no output is negative; it takes exactly the reward for its age and the
fees; and, if the coins of the wallet are on the chain, `ConnectBlock` accepts the reward. -/
structure PaysExactly (s : Staker) (E : Env) (P : Kernel.Params) (w : World) (ctx : Ctx)
    (p : Uint256) (best : CBlockIndex) (nBits nTime : ℕ) (nFees : ℤ) (stake : CTransaction) :
    Prop where
  marker : stake.vout.head? = some ⟨0, []⟩
  distinct : (stake.vin.map CTxIn.prevout).Nodup
  reserve : s.wallet.inputValue stake ≤ s.nBalance - s.nReserveBalance
  kernel : ∃ txin vin nBlockTime, stake.vin = txin :: vin ∧
    Kernel.checkKernel E P w ctx p nBits stake.nTime txin.prevout = .ok nBlockTime
  nonneg : ∀ txout ∈ stake.vout, 0 ≤ txout.nValue
  reward : PaysReward E w ctx best stake nFees (stake.valueOut - s.wallet.inputValue stake)
  accepted : s.OnChain w nTime → w.txdb.fresh = w.txdb → ∀ (block : CBlock) (e : CBlockIndex)
    (t : BlockTally), block.isProofOfStake = true → block.vtx.getD 1 default = stake →
      e.pprev = some p → t.nFees = nFees →
      t.nStakeReward = sub64 stake.valueOut (valueIn w.files.diskTx w.chainView stake) →
      ∃ nReward, checkReward E w ctx block e best t = .ok nReward

/-- The amounts that a wallet is configured with: the least value of an input and the reserve are
not negative, and the balance is an `int64_t`. -/
structure Staker.Configured (s : Staker) : Prop where
  nMinimumInputValue : 0 ≤ s.ismine.nMinimumInputValue
  nBalance : s.nBalance < 2 ^ 63
  nReserveBalance : 0 ≤ s.nReserveBalance

/-- The value of the coins that are chosen and the reward for their age add up in 64 bits. -/
def Staker.CreditFits (s : Staker) (E : Env) (S : SignEnv) (P : Kernel.Params) (w : World)
    (ctx : Ctx) (p : Uint256) (best : CBlockIndex) (nBits : ℕ) (nSearchInterval nFees : ℤ)
    (nTime : ℕ) : Prop :=
  ∀ d nCoinAge, stakeDraft64 s.ismine s.view s.wallet
      (s.context E S P w ctx p nBits nTime nSearchInterval) = some d →
    getCoinAge E w ctx w.txdb.fresh (some p) d.tx = .ok nCoinAge →
    totalValue d.coins +
      getProofOfStakeReward best.nHeight best.nMoneySupply (wrap64 nCoinAge) nFees < 2 ^ 63

variable {E : Env} {S : SignEnv} {P : Kernel.Params} {w : World} {ctx : Ctx} {s : Staker}
  {p : Uint256} {best : CBlockIndex} {nBits : ℕ} {nSearchInterval nFees : ℤ} {key : CKey}
  {stake : CTransaction}

theorem isCoinBase_of_vout {tx : CTransaction} (h : tx.vout ≠ []) :
    tx.isCoinBase = match tx.vin.map CTxIn.prevout with
      | [o] => o.isNull
      | _ => false := by
  have hlength : 1 ≤ tx.vout.length := length_pos_iff.2 h
  rw [CTransaction.isCoinBase]
  rcases tx.vin with _ | ⟨txin, _ | ⟨txin', vin⟩⟩
  · rfl
  · simp [hlength]
  · rfl

/-- A coinstake is a draft that is paid, with scripts that sign its inputs. -/
theorem createCoinStake64_draft (hbest : w.pindexBest = some p)
    (hentry : w.mapBlockIndex.lookup p = some best)
    (h : s.createCoinStake64 E S P w ctx nBits nSearchInterval nFees nTime = .ok (stake, key)) :
    ∃ d nCoinAge nReward, stakeDraft64 s.ismine s.view s.wallet
        (s.context E S P w ctx p nBits nTime nSearchInterval) = some d ∧
      getCoinAge E w ctx w.txdb.fresh (some p) d.tx = .ok nCoinAge ∧
      getProofOfStakeReward best.nHeight best.nMoneySupply (wrap64 nCoinAge) nFees = nReward ∧
      0 < nReward ∧
      SameButScripts (d.paid none (add64 d.nCredit nReward)
        (getXNodePayment (best.nHeight + 1) nReward)) stake := by
  unfold Staker.createCoinStake64 at h
  simp only [hbest, hentry] at h
  cases hdraft : stakeDraft64 s.ismine s.view s.wallet
      (s.context E S P w ctx p nBits nTime nSearchInterval) with
  | none => simp only [hdraft, reduceCtorEq] at h
  | some d =>
    simp only [hdraft] at h
    cases hkey : kernelKey S s.keystore d.scriptPubKeyKernel with
    | none => simp only [hkey, reduceCtorEq] at h
    | some found =>
      simp only [hkey, bXnodePayment_eq_false, except_bind_eq_ok,
        except_mapError_eq_ok, rejectIf_eq_ok, exists_const] at h
      obtain ⟨nCoinAge, hage, hpos, -, tx, hsigned, -, rfl, -⟩ := h
      exact ⟨d, nCoinAge, _, rfl, hage, rfl, not_le.1 hpos, signInputs_sameButScripts hsigned⟩

/-- What is known of a coinstake that was made: the draft, its age and its reward. -/
structure Drafted (s : Staker) (E : Env) (P : Kernel.Params) (w : World) (ctx : Ctx)
    (p : Uint256) (best : CBlockIndex) (nBits nTime : ℕ) (nFees : ℤ) (stake : CTransaction)
    (d : StakeDraft) (nCoinAge : ℕ) (nReward : ℤ) : Prop where
  balance : s.nReserveBalance < s.nBalance
  coins : ∀ out ∈ d.coins, out ∈ s.wallet.stakeable s.ismine s.view nTime
  distinct : (d.coins.map COutput.prevout).Nodup
  credit : d.nCredit = wrap64 (totalValue d.coins)
  reserve : d.nCredit ≤ sub64 s.nBalance s.nReserveBalance
  kernel : ∃ kernel rest nBlockTime, d.coins = kernel :: rest ∧
    Kernel.checkKernel E P w ctx p nBits d.nTime kernel.prevout = .ok nBlockTime
  age : getCoinAge E w ctx w.txdb.fresh (some p) d.tx = .ok nCoinAge
  reward : getProofOfStakeReward best.nHeight best.nMoneySupply (wrap64 nCoinAge) nFees = nReward
  pos : 0 < nReward
  frame : SameButScripts (d.paid none (add64 d.nCredit nReward)
    (getXNodePayment (best.nHeight + 1) nReward)) stake

theorem createCoinStake64_drafted (hconf : s.Configured) (hbest : w.pindexBest = some p)
    (hentry : w.mapBlockIndex.lookup p = some best)
    (h : s.createCoinStake64 E S P w ctx nBits nSearchInterval nFees nTime = .ok (stake, key)) :
    ∃ d nCoinAge nReward, stakeDraft64 s.ismine s.view s.wallet
        (s.context E S P w ctx p nBits nTime nSearchInterval) = some d ∧
      Drafted s E P w ctx p best nBits nTime nFees stake d nCoinAge nReward := by
  obtain ⟨d, nCoinAge, nReward, hdraft, hage, hreward, hpos, hframe⟩ :=
    createCoinStake64_draft hbest hentry h
  have hcredited := stakeDraft64_credited (C := s.context E S P w ctx p nBits nTime nSearchInterval)
    (fun out hout => hconf.nMinimumInputValue.trans (Wallet.offers_of_mem hout).nValue) hdraft
  obtain ⟨kernel, rest, nBlockTime, hcoins, hcheck⟩ := hcredited.kernel
  have hkernel : Kernel.checkKernel E P w ctx p nBits d.nTime kernel.prevout = .ok nBlockTime := by
    change (Kernel.checkKernel E P w ctx p nBits d.nTime kernel.prevout).toOption = _ at hcheck
    cases hk : Kernel.checkKernel E P w ctx p nBits d.nTime kernel.prevout with
    | error e => rw [hk] at hcheck; cases hcheck
    | ok t => rw [hk] at hcheck; cases hcheck; rfl
  refine ⟨d, nCoinAge, nReward, hdraft, hcredited.balance,
    fun out hout => hcredited.subperm.subset hout, ?_, hcredited.credit, hcredited.reserve,
    ⟨kernel, rest, nBlockTime, hcoins, hkernel⟩, hage, hreward, hpos, hframe⟩
  exact nodup_prevout_of_subperm hcredited.subperm Wallet.nodup_offer

section Drafted

variable {nCoinAge : ℕ} {nReward : ℤ}

section

variable (h : Drafted s E P w ctx p best nBits nTime nFees stake d nCoinAge nReward)
include h

theorem Drafted.prevouts :
    stake.vin.map CTxIn.prevout = d.coins.map COutput.prevout := by
  rw [h.frame.prevouts, StakeDraft.paid, StakeDraft.tx, map_map]
  rfl

theorem Drafted.inputValue :
    s.wallet.inputValue stake = totalValue d.coins := by
  have hmap : stake.vin.map (fun txin => s.wallet.valueAt txin.prevout) =
      (stake.vin.map CTxIn.prevout).map s.wallet.valueAt := by
    rw [map_map]
    rfl
  rw [Wallet.inputValue, hmap, h.prevouts, map_map]
  exact congrArg List.sum (map_congr_left fun out hout =>
    (Wallet.offers_of_mem (h.coins out hout)).valueAt)

theorem Drafted.valueOut :
    stake.valueOut = wrap64 (totalValue d.coins + nReward) := by
  have hrange := wrap64_range (d.nCredit + nReward)
  rw [CTransaction.valueOut, h.frame.vout, ← CTransaction.valueOut,
    d.valueOut_paid_shape none (by rw [add64]; exact hrange), add64, h.credit, wrap64_wrap_add]

theorem Drafted.age_stake :
    getCoinAge E w ctx w.txdb.fresh (some p) stake = .ok nCoinAge := by
  have hout : stake.vout ≠ [] := by
    intro hnil
    have hhead := d.head_paid_shape none (add64 d.nCredit nReward)
      (getXNodePayment (best.nHeight + 1) nReward)
    rw [← h.frame.vout, hnil] at hhead
    cases hhead
  have hbase : stake.isCoinBase = d.tx.isCoinBase := by
    rw [isCoinBase_of_vout hout, isCoinBase_of_vout (cons_ne_nil _ _), h.frame.prevouts]
    rfl
  rw [← h.age]
  exact getCoinAge_prevouts E w ctx _ _ hbase h.frame.nTime h.frame.prevouts

/-- The validator sees the value that the wallet sees. -/
theorem Drafted.valueIn (hchain : s.OnChain w nTime) :
    valueIn w.files.diskTx w.chainView stake = totalValue d.coins := by
  have hon : ∀ out ∈ d.coins, StakeOnChain w out := fun out hout => hchain out (h.coins out hout)
  have hbase : stake.isCoinBase = false := by
    obtain ⟨kernel, rest, -, hcoins, -⟩ := h.kernel
    have hprev := h.prevouts
    rw [hcoins, map_cons] at hprev
    obtain ⟨txin, vin, hvin, hhead, hrest⟩ := map_eq_cons_iff.1 hprev
    have hnull := (hon kernel (by rw [hcoins]; exact mem_cons_self)).notNull
    rw [CTransaction.isCoinBase, hvin]
    cases vin with
    | nil => simp [hhead, hnull]
    | cons _ _ => rfl
  rw [Espers.valueIn, CTransaction.spends, hbase, if_neg Bool.false_ne_true, h.prevouts, map_map]
  exact congrArg List.sum (map_congr_left fun out hout => (hon out hout).outValue)

/-- If the credit fits, the coinstake is what it is to be. -/
theorem Drafted.paysExactly (hconf : s.Configured) (hbest : w.pindexBest = some p)
    (hfits : totalValue d.coins + nReward < 9223372036854775808) :
    PaysExactly s E P w ctx p best nBits nTime nFees stake := by
  have hnonneg : 0 ≤ totalValue d.coins := totalValue_nonneg fun out hout =>
    hconf.nMinimumInputValue.trans (Wallet.offers_of_mem (h.coins out hout)).nValue
  have hpos := h.pos
  have hvalue : stake.valueOut = totalValue d.coins + nReward := by
    rw [h.valueOut, wrap64_of_range (by omega) hfits]
  have hcredit : d.nCredit = totalValue d.coins := by
    rw [h.credit, wrap64_of_range (by omega) (by omega)]
  have hblock : add64 d.nCredit nReward = totalValue d.coins + nReward := by
    rw [add64, hcredit, wrap64_of_range (by omega) hfits]
  obtain ⟨kernel, rest, nBlockTime, hcoins, hkernel⟩ := h.kernel
  constructor
  · rw [h.frame.vout]
    exact d.head_paid_shape none _ _
  · rw [h.prevouts]
    exact h.distinct
  · have hreserve := h.reserve
    have hbalance := h.balance
    rw [h.inputValue, ← hcredit]
    unfold sub64 wrap64 at hreserve
    omega
  · have hprev := h.prevouts
    rw [hcoins, map_cons] at hprev
    obtain ⟨txin, vin, hvin, hhead, -⟩ := map_eq_cons_iff.1 hprev
    exact ⟨txin, vin, nBlockTime, hvin, by rw [hhead, h.frame.nTime]; exact hkernel⟩
  · rw [h.frame.vout]
    exact d.nonneg_paid_shape none (by rw [hblock]; omega)
  · refine ⟨nCoinAge, by rw [hbest]; exact h.age_stake, ?_⟩
    rw [h.reward, hvalue, h.inputValue]
    omega
  · intro hchain hfresh block e t hpos' hstake hprev hfees hreward
    have hage := h.age_stake
    rw [hfresh] at hage
    have htaken : t.nStakeReward = nReward := by
      rw [hreward, h.valueIn hchain, hvalue, sub64, add_sub_cancel_left]
      exact wrap64_of_range (by omega) (by omega)
    refine ⟨sub64 nReward nFees, ?_⟩
    rw [checkReward, if_pos hpos', hstake, hprev, hage, Except.mapError, except_ok_bind, hfees,
      h.reward, htaken]
    dsimp only
    rw [rejectIf_of_not (lt_irrefl nReward), except_ok_bind]

theorem Drafted.fits (hbest : w.pindexBest = some p)
    (hpays : PaysReward E w ctx best stake nFees (stake.valueOut - s.wallet.inputValue stake)) :
    totalValue d.coins + nReward < 9223372036854775808 := by
  obtain ⟨nCoinAge', hage, hreward⟩ := hpays
  rw [hbest, h.age_stake] at hage
  obtain rfl := ok.inj hage
  rw [h.reward, h.inputValue] at hreward
  have hvalue := h.valueOut
  have hrange := wrap64_range (totalValue d.coins + nReward)
  omega

end

end Drafted

/-- **`CreateCoinStake` pays exactly the reward**, to any shape of outputs, if and only if the value
of the coins it chooses and the reward for their age and the fees add up in 64 bits. -/
theorem createCoinStake_pays_iff (s : Staker) (E : Env) (S : SignEnv) (P : Kernel.Params)
    (w : World) (ctx : Ctx) (p : Uint256) (best : CBlockIndex) (nBits : ℕ)
    (nSearchInterval nFees : ℤ) (nTime : ℕ) (stake : CTransaction) (key : CKey)
    (hconf : s.Configured) (hbest : w.pindexBest = some p)
    (hentry : w.mapBlockIndex.lookup p = some best)
    (h : s.createCoinStake64 E S P w ctx nBits nSearchInterval nFees nTime = .ok (stake, key)) :
    (PaysExactly s E P w ctx p best nBits nTime nFees stake ↔
      s.CreditFits E S P w ctx p best nBits nSearchInterval nFees nTime) ∧
    ∀ (d : StakeDraft) (payee : Option CScript) (blockValue nReward : ℤ), -2 ^ 63 ≤ blockValue →
      blockValue < 2 ^ 63 →
      (d.paid payee blockValue (getXNodePayment (best.nHeight + 1) nReward)).valueOut =
        blockValue := by
  obtain ⟨d, nCoinAge, nReward, hdraft, hD⟩ := createCoinStake64_drafted hconf hbest hentry h
  refine ⟨?_, fun d payee blockValue nReward hlow hhigh =>
    d.valueOut_paid_shape payee ⟨hlow, hhigh⟩⟩
  constructor
  · intro hpays d' nCoinAge' hdraft' hage'
    obtain rfl := some.inj (hdraft.symm.trans hdraft')
    obtain rfl := ok.inj (hD.age.symm.trans hage')
    rw [hD.reward]
    exact hD.fits hbest hpays.reward
  · intro hfits
    have hsum := hfits d nCoinAge hdraft hD.age
    rw [hD.reward] at hsum
    exact hD.paysExactly hconf hbest hsum

namespace Simnet

/-- The savings are staked at 8032, in a block with these fees. -/
def savingsStake (nFees : ℤ) : Except Stop (CTransaction × CKey) :=
  saver.createCoinStake64 env OneKey.env zeroParams savingsWorld (clock 8032) 0x207fffff 1
    nFees 8032

theorem exists_savingsStake {nFees : ℤ} {q : CTransaction → Bool}
    (h : ((savingsStake nFees).toOption.any fun r => q r.1) = true) :
    ∃ stake key, savingsStake nFees = .ok (stake, key) ∧ q stake = true := by
  cases hrun : savingsStake nFees with
  | error e =>
    rw [hrun] at h
    cases h
  | ok r =>
    rw [hrun] at h
    exact ⟨r.1, r.2, rfl, h⟩

theorem saver_configured : saver.Configured := ⟨by decide, by decide, by decide⟩

end Simnet

open Simnet

/-- The savings are paid their reward. -/
theorem createCoinStake_pays_savings : ∃ stake key, savingsStake 0 = .ok (stake, key) ∧
    PaysExactly saver env Kernel.zeroParams savingsWorld (clock 8032) 1
      bankEntry 0x207fffff 8032 0 stake := by
  obtain ⟨stake, key, hrun, -⟩ := @exists_savingsStake 0 (fun _ => true) (by decide +kernel)
  refine ⟨stake, key, hrun, (createCoinStake_pays_iff _ _ _ _ _ _ _ _ _ _ _ _ _ _
    saver_configured rfl rfl hrun).1.2 fun d nCoinAge hdraft hage => ?_⟩
  have hall : ((stakeDraft64 saver.ismine saver.view saver.wallet
      (saver.context env OneKey.env zeroParams savingsWorld
        (clock 8032) 1 0x207fffff 8032 1)).all fun d =>
      (getCoinAge env savingsWorld (clock 8032) savingsWorld.txdb.fresh
        (some 1) d.tx).toOption.all fun nCoinAge : ℕ =>
        decide (totalValue d.coins + getProofOfStakeReward bankEntry.nHeight
          bankEntry.nMoneySupply (wrap64 nCoinAge) 0 < 2 ^ 63)) = true := by
    decide +kernel
  rw [hdraft, Option.all_some, hage] at hall
  exact of_decide_eq_true hall

/-- With fees of nearly `2 ^ 63` the credit is negative, and so are the outputs. -/
theorem createCoinStake_negative : ∃ stake key, savingsStake (2 ^ 63 - 468183) = .ok (stake, key) ∧
    ¬ PaysExactly saver env Kernel.zeroParams savingsWorld (clock 8032)
      1 bankEntry 0x207fffff 8032 (2 ^ 63 - 468183) stake := by
  obtain ⟨stake, key, hrun, hneg⟩ := @exists_savingsStake (2 ^ 63 - 468183)
    (fun stake => stake.vout.any fun txout => decide (txout.nValue < 0)) (by decide +kernel)
  refine ⟨stake, key, hrun, fun hpays => ?_⟩
  obtain ⟨txout, hmem, hless⟩ := any_eq_true.1 hneg
  exact absurd (hpays.nonneg txout hmem) (not_le.2 (of_decide_eq_true hless))

end Espers
