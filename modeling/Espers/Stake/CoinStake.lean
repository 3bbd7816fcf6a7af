import Espers.Miner.Mined
import Espers.Script.Signing
import Espers.Stake.Kernel
import Espers.Wallet.LockedCoins

/-!
# The coinstake of a template

`SignBlock` makes a block of a proof-of-stake template.  `CreateCoinStake` pays the reward and the
fees of the template; the block takes the time of the coinstake, which is rounded down, and the
transactions that are later than that are erased.

* `Staker.createCoinStake` and `signBlock` : the two functions; up to the reward the coins are those
  of `createCoinStake` (`stakeDraft_coins`).
* `signBlock_spec` : what a signed block consists of.
* `signBlock_allowed_iff` : **the coinstake pays what the validator allows exactly if no transaction
  of the template is later than the rounded time.**
* `signBlock_overpays` : the node pays itself the fee of a payment that it erases.
-/

namespace Espers

open Exec Bool Int Except
open Option (some bind_some)
open List hiding Vector

/-! ### The wallet that stakes -/

/-- A time without the bits of `STAKE_TIMESTAMP_MASK`. -/
def maskTime (nTime : ℕ) : ℕ := nTime &&& 0xfffffff0

/-- A wallet that stakes: its coins and keys, and what it is told by the rest of the node. -/
structure Staker where
  ismine : Keystore
  view : CoinView
  wallet : Wallet
  keystore : KeyStore
  /-- `GetBalance()`. -/
  nBalance : ℤ
  nReserveBalance : ℤ
  /-- The argument `-stakethreshold`. -/
  stakethreshold : ℤ := 1000
  /-- The order of the set of coins, by pointers. -/
  arrange : List COutput → List COutput
  arrange_perm : ∀ setCoins, (arrange setCoins).Perm setCoins
  /-- The script of the xnode to pay, from `GetBlockPayee` or `GetCurrentXnode`. -/
  payee : Option CScript

/-- The key of a kernel and the script the stake pays to; a key without a public key has none. -/
def kernelKey (S : SignEnv) (keystore : KeyStore) (scriptPubKeyKernel : CScript) :
    Option (CKey × CScript) :=
  match solver scriptPubKeyKernel with
  | (true, .pubKeyHash, vSolutions) =>
    -- pay to address becomes pay to public key
    (keystore.getKey (uint160OfBytes (vSolutions.headD []))).bind fun key =>
      (key.getPubKey S.toKeyFunctions).toOption.map fun pubkey => (key, pushData pubkey ++ [0xac])
  | (true, .pubKey, vSolutions) =>
    (keystore.getKey (S.hash160 (vSolutions.headD []))).bind fun key =>
      if (key.getPubKey S.toKeyFunctions).toOption = some (vSolutions.headD []) then
        some (key, scriptPubKeyKernel)
      else none
  | _ => none

/-- What `CreateCoinStake` selects its coins with. -/
def Staker.context (s : Staker) (E : Env) (S : SignEnv) (K : Kernel.Params) (w : World) (ctx : Ctx)
    (p : Uint256) (nBits nTime : ℕ) (nSearchInterval : ℤ) : StakeContext where
  nBalance := s.nBalance
  nReserveBalance := s.nReserveBalance
  nTime := nTime
  nSearchInterval := nSearchInterval
  checkKernel prevout nTime := (Kernel.checkKernel E K w ctx p nBits nTime prevout).toOption
  stakeScript script := (kernelKey S s.keystore script).map Prod.snd
  arrange := s.arrange
  arrange_perm := s.arrange_perm
  nStakeSplitAge := 8 * 24 * 60 * 60
  nStakeSplitThreshold := mul64 500 (mul64 s.stakethreshold coin)
  nStakeCombineThreshold := mul64 s.stakethreshold coin

/-! ### `CreateCoinStake` -/

/-- A coinstake before it is paid: its time, its coins with their value, whether it is split, and
the scripts of its kernel and of its outputs. -/
structure StakeDraft where
  nTime : ℕ
  coins : List COutput
  nCredit : ℤ
  fSplit : Bool
  scriptPubKeyKernel : CScript
  scriptPubKeyOut : CScript

/-- `CreateCoinStake` up to the coin age. -/
def stakeDraft (K : Keystore) (V : CoinView) (w : Wallet) (C : StakeContext) : Option StakeDraft :=
  if C.nBalance ≤ C.nReserveBalance then none
  else
    let setCoins :=
      C.arrange (selectCoinsForStaking K V w (C.nBalance - C.nReserveBalance) C.nTime).1
    match findKernel C setCoins with
    | none => none
    | some (kernel, n, nBlockTime, scriptPubKeyOut) =>
      if kernel.nValue = 0 ∨ kernel.nValue > C.nBalance - C.nReserveBalance then none
      else
        let nTime : ℤ := C.nTime - n
        if V.getWeight nBlockTime nTime < C.nStakeSplitAge ∨
          kernel.nValue > C.nStakeSplitThreshold then
          some ⟨nTime.toNat, [kernel], kernel.nValue, true, kernel.txout.scriptPubKey,
            scriptPubKeyOut⟩
        else
          let ret := combineCoins V C kernel scriptPubKeyOut nTime setCoins
            ([kernel], kernel.nValue)
          some ⟨nTime.toNat, ret.1, ret.2, false, kernel.txout.scriptPubKey, scriptPubKeyOut⟩

/-- The coinstake without values. -/
def StakeDraft.tx (d : StakeDraft) : CTransaction where
  nVersion := 1
  nTime := d.nTime
  vin := d.coins.map fun out => ⟨out.prevout, [], uintMax⟩
  vout := ⟨0, []⟩ :: List.replicate (if d.fSplit then 2 else 1) ⟨0, d.scriptPubKeyOut⟩
  nLockTime := 0

/-- `START_XNODE_PAYMENTS` and `STOP_XNODE_PAYMENTS`, on both networks. -/
def startXNodePayments : ℤ := 9993058800
def stopXNodePayments : ℤ := 9993058800

/-- Whether an xnode is paid. -/
def bXnodePayment (getTime : ℤ) : Bool :=
  decide (getTime > startXNodePayments) && !decide (getTime > stopXNodePayments)

/-- `GetXNodePayment`: no reward during alpha phase prototyping. -/
def getXNodePayment (_nHeight _blockValue : ℤ) : ℤ := 0 * coin

/-- `vout[i].nValue = nValue`. -/
def setValue (i : ℕ) (nValue : ℤ) (vout : List CTxOut) : List CTxOut :=
  vout.modify i fun txout => { txout with nValue := nValue }

/-- The first half of a stake that is split. -/
def stakeHalf (blockValue : ℤ) : ℤ := mul64 ((blockValue.tdiv 2).tdiv cent) cent

/-- The output amounts of a coinstake. -/
def stakeAmounts (hasPayment : Bool) (blockValue xnodePayment : ℤ) (vout : List CTxOut) :
    List CTxOut :=
  if !hasPayment then
    if vout.length = 3 then
      setValue 2 (sub64 blockValue (stakeHalf blockValue)) (setValue 1 (stakeHalf blockValue) vout)
    else if vout.length = 2 then setValue 1 blockValue vout
    else vout
  else
    let left := sub64 blockValue xnodePayment
    if vout.length = 4 then
      setValue 2 (sub64 left (stakeHalf left))
        (setValue 1 (stakeHalf left) (setValue 3 xnodePayment vout))
    else if vout.length = 3 then setValue 1 left (setValue 2 xnodePayment vout)
    else vout

/-- The coinstake with its values, and with the output for the xnode. -/
def StakeDraft.paid (d : StakeDraft) (payee : Option CScript) (blockValue xnodePayment : ℤ) :
    CTransaction :=
  let vout := d.tx.vout ++ payee.toList.map fun script => ⟨0, script⟩
  { d.tx with vout := stakeAmounts payee.isSome blockValue xnodePayment vout }

/-- `SIGHASH_ALL`. -/
def sigHashAll : UInt8 := 1

/-- The inputs of a coinstake are signed. -/
def signInputs (S : SignEnv) (keystore : KeyStore) :
    List COutput → ℕ → CTransaction → Except Stop CTransaction
  | [], _, txNew => .ok txNew
  | out :: vwtxPrev, nIn, txNew => do
    let (fSigned, txNew) ← signSignature S keystore out.txout.scriptPubKey txNew nIn sigHashAll
    rejectIf (fSigned = false) (.error "CreateCoinStake : failed to sign coinstake")
    signInputs S keystore vwtxPrev (nIn + 1) txNew

/-- `CWallet::CreateCoinStake`: the coinstake and the key of its kernel. -/
def Staker.createCoinStake (s : Staker) (E : Env) (S : SignEnv) (K : Kernel.Params)
    (w : World) (ctx : Ctx) (nBits : ℕ) (nSearchInterval nFees : ℤ) (nTime : ℕ) :
    Except Stop (CTransaction × CKey) :=
  match w.pindexBest with
  | none => .error (.crash "null pointer")
  | some p =>
    match w.mapBlockIndex.lookup p with
    | none => .error (.crash "null pointer")
    | some best =>
      match stakeDraft s.ismine s.view s.wallet
        (s.context E S K w ctx p nBits nTime nSearchInterval) with
      | none => .error .refuse
      | some d =>
        match kernelKey S s.keystore d.scriptPubKeyKernel with
        | none => .error .refuse
        | some (key, _) => do
          let nCoinAge ← (getCoinAge E w ctx w.txdb.fresh (some p) d.tx).mapError <|
            Stop.report (.error "CreateCoinStake : failed to calculate coin age")
          let nReward := getProofOfStakeReward best.nHeight best.nMoneySupply
            (wrap64 nCoinAge) nFees
          rejectIf (nReward ≤ 0) .refuse
          rejectIf (bXnodePayment ctx.getTime ∧ s.payee = none)
            (.error "CreateCoinStake: Failed to detect xnode to pay\n")
          let payee := if bXnodePayment ctx.getTime then s.payee else none
          let txNew ← signInputs S s.keystore d.coins 0 <|
            d.paid payee (add64 d.nCredit nReward) (getXNodePayment (best.nHeight + 1) nReward)
          rejectIf (txNew.getSerializeSize ≥ maxBlockSizeGen / 5)
            (.error "CreateCoinStake : exceeded coinstake size limit")
          .ok (txNew, key)

/-- The coinstake is put into the block: the block and its first transaction take its time, later
transactions are erased, and the root is that of the new list. -/
def CBlock.withCoinStake (E : Env) (block : CBlock) (txCoinStake : CTransaction) : CBlock :=
  let vtx := (block.vtx.modify 0 fun cb => { cb with nTime := txCoinStake.nTime }).filter fun tx =>
    !decide (tx.nTime > txCoinStake.nTime)
  let block := { block with nTime := txCoinStake.nTime, vtx := vtx.take 1 ++ txCoinStake :: vtx.drop 1 }
  { block with hashMerkleRoot := block.buildMerkleTree E }

/-- `CBlock::SignBlock`: the signed block, if it returns `true`, and `nLastCoinStakeSearchTime`. -/
def signBlock (E : Env) (S : SignEnv) (K : Kernel.Params) (w : World) (ctx : Ctx) (s : Staker)
    (nLastCoinStakeSearchTime : ℤ) (block : CBlock) (nFees : ℤ) : Except Stop (Option CBlock × ℤ) :=
  match block.vtx.head?.bind fun tx => tx.vout.head? with
  | none => .error (.crash "vtx[0].vout[0]")
  | some txout =>
    if !txout.isEmpty then .ok (none, nLastCoinStakeSearchTime)
    else if block.isProofOfStake then .ok (some block, nLastCoinStakeSearchTime)
    else
      let nTime := maskTime (ctx.getAdjustedTime % 2 ^ 32).toNat
      if nTime > nLastCoinStakeSearchTime then do
        match ← tolerate (s.createCoinStake E S K w ctx block.nBits 1 nFees nTime) with
        | none => .ok (none, nTime)
        | some (txCoinStake, key) =>
          match w.pindexBest.bind w.mapBlockIndex.lookup with
          | none => .error (.crash "null pointer")
          | some best =>
            if txCoinStake.nTime ≥ best.nTime + 1 then
              let block := block.withCoinStake E txCoinStake
              .ok ((S.sign key (block.getHash E)).map fun vchBlockSig => { block with vchBlockSig },
                nLastCoinStakeSearchTime)
            else .ok (none, nTime)
      else .ok (none, nLastCoinStakeSearchTime)

/-! ### What a coinstake is made of -/

variable {K : Keystore} {V : CoinView} {wallet : Wallet} {C : StakeContext} {d : StakeDraft}

theorem stakeDraft_coins (K : Keystore) (V : CoinView) (wallet : Wallet) (C : StakeContext) :
    (stakeDraft K V wallet C).map StakeDraft.coins = createCoinStake K V wallet C := by
  unfold stakeDraft createCoinStake
  dsimp only
  generalize C.arrange _ = setCoins
  by_cases hbalance : C.nBalance ≤ C.nReserveBalance
  · rw [if_pos hbalance, if_pos hbalance]
    rfl
  · rw [if_neg hbalance, if_neg hbalance]
    cases findKernel C setCoins with
    | none => rfl
    | some found =>
      dsimp only
      split_ifs <;> rfl

theorem totalValue_concat (coins : List COutput) (out : COutput) :
    totalValue (coins ++ [out]) = totalValue coins + out.nValue := by
  rw [totalValue, map_append, sum_append, map_singleton, sum_singleton, totalValue]

variable {setCoins : List COutput} {kernel : COutput} {script : CScript}

theorem combineCoins_credit {nTime : ℤ} {ret : List COutput × ℤ} (h : ret.2 = totalValue ret.1) :
    (combineCoins V C kernel script nTime setCoins ret).2 =
      totalValue (combineCoins V C kernel script nTime setCoins ret).1 := by
  induction setCoins generalizing ret with
  | nil => exact h
  | cons out setCoins ih =>
    rw [combineCoins]
    split_ifs
    · exact h
    · exact h
    · exact h
    · exact ih h
    · exact ih h
    · exact ih (by rw [totalValue_concat, h])
    · exact ih h

theorem combineCoins_ne_nil {nTime : ℤ} {ret : List COutput × ℤ} (h : ret.1 ≠ []) :
    (combineCoins V C kernel script nTime setCoins ret).1 ≠ [] := by
  induction setCoins generalizing ret with
  | nil => exact h
  | cons out setCoins ih =>
    rw [combineCoins]
    split_ifs
    · exact h
    · exact h
    · exact h
    · exact ih h
    · exact ih h
    · exact ih (append_ne_nil_of_left_ne_nil h _)
    · exact ih h

/-- The searches go back no further than to the time of the coinstake itself. -/
theorem findKernel_now {n : ℕ} {nBlockTime : ℤ} (hone : C.nSearchInterval = 1)
    (h : findKernel C setCoins = some (kernel, n, nBlockTime, script)) : n = 0 := by
  have hsearch : ∀ prevout found, searchKernel C prevout 0 (min C.nSearchInterval 60).toNat =
    some found → found.1 = 0 := by
    intro prevout found hfound
    rw [hone, show (min (1 : ℤ) 60).toNat = 1 from rfl, searchKernel] at hfound
    cases hcheck : C.checkKernel prevout (C.nTime - (0 : ℕ)) with
    | none => rw [hcheck] at hfound; cases hfound
    | some t => rw [hcheck] at hfound; cases hfound; rfl
  induction setCoins with
  | nil => cases h
  | cons out setCoins ih =>
    rw [findKernel] at h
    cases hfound : searchKernel C out.prevout 0 (min C.nSearchInterval 60).toNat with
    | none => simp only [hfound] at h; exact ih h
    | some found =>
      simp only [hfound] at h
      cases hscript : C.stakeScript out.txout.scriptPubKey with
      | none => simp only [hscript] at h; exact ih h
      | some scriptPubKeyOut =>
        simp only [hscript, some.injEq, Prod.mk.injEq] at h
        rw [← h.2.1]
        exact hsearch _ _ hfound

/-- A draft: its time is the one asked for, and it is credited the value of its coins. -/
structure StakeDraft.Sound (d : StakeDraft) (nTime : ℕ) : Prop where
  time : d.nTime = nTime
  coins : d.coins ≠ []
  credit : d.nCredit = totalValue d.coins

theorem stakeDraft_sound (hone : C.nSearchInterval = 1) (h : stakeDraft K V wallet C = some d) :
    d.Sound C.nTime := by
  unfold stakeDraft at h
  generalize C.arrange _ = setCoins at h
  split_ifs at h
  cases hfind : findKernel C setCoins with
  | none => simp only [hfind, reduceCtorEq] at h
  | some found =>
    obtain ⟨kernel, n, nBlockTime, script⟩ := found
    obtain rfl := findKernel_now hone hfind
    simp only [hfind] at h
    have htime : ((C.nTime : ℤ) - (0 : ℕ)).toNat = C.nTime := by omega
    have hkernel : kernel.nValue = totalValue [kernel] := by
      rw [totalValue, map_singleton, sum_singleton]
    split_ifs at h
    · obtain rfl := some.inj h
      exact ⟨htime, cons_ne_nil _ _, hkernel⟩
    · obtain rfl := some.inj h
      exact ⟨htime, combineCoins_ne_nil (cons_ne_nil _ _), combineCoins_credit hkernel⟩

theorem bXnodePayment_eq_false (getTime : ℤ) : bXnodePayment getTime = false := by
  rw [bXnodePayment, startXNodePayments, stopXNodePayments, Bool.and_not_self]

/-- The halves of a stake that is split add up to it. -/
theorem stakeHalf_add {blockValue : ℤ}
    (h : -9223372036854775808 ≤ blockValue ∧ blockValue < 9223372036854775808) :
    stakeHalf blockValue + sub64 blockValue (stakeHalf blockValue) = blockValue := by
  have hcent : cent = 1000000 := by decide
  have hhalf : stakeHalf blockValue = (blockValue.tdiv 2).tdiv cent * cent ∧
      (0 ≤ blockValue → 0 ≤ stakeHalf blockValue ∧ stakeHalf blockValue ≤ blockValue) ∧
      (blockValue < 0 → blockValue ≤ stakeHalf blockValue ∧ stakeHalf blockValue ≤ 0) := by
    rw [stakeHalf, mul64, hcent]
    rcases le_total 0 blockValue with hpos | hneg
    · rw [tdiv_eq_ediv_of_nonneg hpos, tdiv_eq_ediv_of_nonneg (by omega),
        wrap64_of_range (by omega) (by omega)]
      omega
    · obtain ⟨x, rfl⟩ : ∃ x, blockValue = -x := ⟨-blockValue, (neg_neg _).symm⟩
      rw [Int.neg_tdiv, Int.neg_tdiv, Int.tdiv_eq_ediv_of_nonneg (by omega : 0 ≤ x),
        tdiv_eq_ediv_of_nonneg (by omega), wrap64_of_range (by omega) (by omega)]
      omega
  rw [sub64, wrap64_of_range (by omega) (by omega)]
  omega

theorem StakeDraft.valueOut_paid (d : StakeDraft) {blockValue xnodePayment : ℤ}
    (h : -9223372036854775808 ≤ blockValue ∧ blockValue < 9223372036854775808) :
    (d.paid none blockValue xnodePayment).valueOut = blockValue := by
  have hhalf := stakeHalf_add h
  cases hsplit : d.fSplit with
  | false => simp [paid, tx, stakeAmounts, setValue, hsplit, CTransaction.valueOut]
  | true => simp [paid, tx, stakeAmounts, setValue, hsplit, CTransaction.valueOut, hhalf]

theorem StakeDraft.isCoinStake_paid {d : StakeDraft} {out : COutput} {coins : List COutput}
    (hcoins : d.coins = out :: coins) (hnull : out.prevout.isNull = false)
    (blockValue xnodePayment : ℤ) : (d.paid none blockValue xnodePayment).isCoinStake = true := by
  unfold CTransaction.isCoinStake
  cases hsplit : d.fSplit with
  | false => simp [paid, tx, stakeAmounts, setValue, hsplit, hcoins, hnull, CTxOut.isEmpty]
  | true => simp [paid, tx, stakeAmounts, setValue, hsplit, hcoins, hnull, CTxOut.isEmpty]

/-! ### Signatures -/

/-- Only scripts of the inputs differ. -/
structure SameButScripts (tx tx' : CTransaction) : Prop where
  nTime : tx'.nTime = tx.nTime
  prevouts : tx'.vin.map CTxIn.prevout = tx.vin.map CTxIn.prevout
  vout : tx'.vout = tx.vout

theorem SameButScripts.refl (tx : CTransaction) : SameButScripts tx tx := ⟨rfl, rfl, rfl⟩

theorem SameButScripts.trans {tx tx' tx'' : CTransaction} (h : SameButScripts tx tx')
    (h' : SameButScripts tx' tx'') : SameButScripts tx tx'' :=
  ⟨h'.nTime.trans h.nTime, h'.prevouts.trans h.prevouts, h'.vout.trans h.vout⟩

theorem sameButScripts_withScriptSig (tx : CTransaction) (nIn : ℕ) (scriptSig : CScript) :
    SameButScripts tx (tx.withScriptSig nIn scriptSig) := by
  refine ⟨rfl, ?_, rfl⟩
  refine ext_getElem? fun i => ?_
  rw [CTransaction.withScriptSig, getElem?_map, getElem?_modify, getElem?_map]
  cases tx.vin[i]? with
  | none => rfl
  | some txin =>
    by_cases hi : nIn = i
    · simp [hi]
    · simp [hi]

variable {tx tx' : CTransaction}

theorem signSignature_sameButScripts {S : SignEnv} {keystore : KeyStore} {fromPubKey : CScript}
    {nIn : ℕ} {nHashType : UInt8} {fSigned : Bool}
    (h : signSignature S keystore fromPubKey tx nIn nHashType = .ok (fSigned, tx')) :
    SameButScripts tx tx' := by
  unfold signSignature at h
  dsimp only at h
  generalize solverSign S keystore (signatureHash S.toScriptEnv fromPubKey tx nIn nHashType.toNat)
    nHashType fromPubKey = solved at h
  -- in the second case the script of a hash is signed, and the input is written to twice
  split_ifs at h
  · cases h
    exact sameButScripts_withScriptSig _ _ _
  · cases h
    exact (sameButScripts_withScriptSig _ _ _).trans (sameButScripts_withScriptSig _ _ _)
  · cases h
    exact (sameButScripts_withScriptSig _ _ _).trans (sameButScripts_withScriptSig _ _ _)
  · cases h
    exact sameButScripts_withScriptSig _ _ _

theorem signInputs_sameButScripts {S : SignEnv} {keystore : KeyStore} {vwtxPrev : List COutput}
    {nIn : ℕ} (h : signInputs S keystore vwtxPrev nIn tx = .ok tx') : SameButScripts tx tx' := by
  induction vwtxPrev generalizing nIn tx with
  | nil =>
    cases h
    exact .refl _
  | cons out vwtxPrev ih =>
    obtain ⟨⟨fSigned, tx1⟩, hsign, h⟩ := except_bind_eq_ok.1 h
    obtain ⟨-, -, h⟩ := except_bind_eq_ok.1 h
    exact (signSignature_sameButScripts hsign).trans (ih h)

theorem centSeconds_prevouts (E : Env) (w : World) (ctx : Ctx) (txdb : CTxDB) (p : Option Uint256)
    (nTime : ℕ) (a : ℤ) {vin vin' : List CTxIn}
    (h : vin'.map CTxIn.prevout = vin.map CTxIn.prevout) : centSeconds E w ctx txdb p nTime a vin' =
    centSeconds E w ctx txdb p nTime a vin := by
  induction vin generalizing vin' a with
  | nil =>
    obtain rfl := map_eq_nil_iff.1 h
    rfl
  | cons txin vin ih =>
    obtain ⟨txin', vin', rfl, hprev, hrest⟩ := map_eq_cons_iff.1 h
    simp only [centSeconds, hprev, ih _ hrest]

theorem getCoinAge_prevouts (E : Env) (w : World) (ctx : Ctx) (txdb : CTxDB) (p : Option Uint256)
    (hcb : tx'.isCoinBase = tx.isCoinBase) (htime : tx'.nTime = tx.nTime)
    (h : tx'.vin.map CTxIn.prevout = tx.vin.map CTxIn.prevout) :
    getCoinAge E w ctx txdb p tx' = getCoinAge E w ctx txdb p tx := by
  rw [getCoinAge, getCoinAge, hcb, htime, centSeconds_prevouts E w ctx txdb p tx.nTime 0 h]

/-! ### The coinstake of a signed block -/

variable {E : Env} {S : SignEnv} {P : Kernel.Params} {w w' : World} {ctx ctx' : Ctx} {s : Staker}
  {args : MinerArgs} {heap : HeapLayout} {T : Template} {block : CBlock} {p : Uint256}
  {best : CBlockIndex}

/-- A coin of the wallet is an output of the chain. -/
structure StakeOnChain (w : World) (out : COutput) : Prop where
  notNull : out.prevout.isNull = false
  nonneg : 0 ≤ out.nValue
  record : ∃ r t, w.chainView out.hash = some r ∧ w.files.diskTx r.pos = some t ∧
    t.vout[out.i]? = some out.txout

theorem StakeOnChain.outValue {out : COutput} (h : StakeOnChain w out) :
    outValue w.files.diskTx w.chainView out.prevout = out.nValue := by
  obtain ⟨r, t, hr, ht, hout⟩ := h.record
  rw [Espers.outValue, COutput.prevout, hr, bind_some, ht, bind_some, hout]
  rfl

/-- What the wallet offers for a stake at the time `nTime` is on the chain. -/
def Staker.OnChain (s : Staker) (w : World) (nTime : ℕ) : Prop :=
  ∀ out ∈ s.wallet.stakeable s.ismine s.view nTime, StakeOnChain w out

/-- The reward of the coinstake `stake` on the best block `best`, with the fees `nFees`. -/
def PaysReward (E : Env) (w : World) (ctx : Ctx) (best : CBlockIndex) (stake : CTransaction)
    (nFees nReward : ℤ) : Prop :=
  ∃ nCoinAge, getCoinAge E w ctx w.txdb.fresh w.pindexBest stake = .ok nCoinAge ∧
    getProofOfStakeReward best.nHeight best.nMoneySupply (wrap64 nCoinAge) nFees = nReward

/-- A coinstake at `nTime` that pays the reward for the fees `nFees`, in 64 bits. -/
structure Staked (E : Env) (w : World) (ctx : Ctx) (best : CBlockIndex) (nTime : ℕ) (nFees : ℤ)
    (stake : CTransaction) : Prop where
  time : stake.nTime = nTime
  isCoinStake : stake.isCoinStake = true
  spends : ∀ o ∈ stake.spends, (w.chainView o.hash).isSome
  reward : ∃ nReward, PaysReward E w ctx best stake nFees nReward ∧ 0 < nReward ∧
    stake.valueOut = wrap64 (valueIn w.files.diskTx w.chainView stake + nReward)
  valueIn_nonneg : 0 ≤ valueIn w.files.diskTx w.chainView stake

theorem isCoinBase_of_isCoinStake {tx : CTransaction} (h : tx.isCoinStake = true) :
    tx.isCoinBase = false := by
  unfold CTransaction.isCoinStake at h
  unfold CTransaction.isCoinBase
  split at h
  · next txin vin txout txout' vout hvin hvout =>
    rw [and_eq_true, not_eq_true'] at h
    rw [hvin]
    cases vin with
    | nil => simp [h.1]
    | cons _ _ => rfl
  · cases h

/-- Scripts of the inputs are not asked for. -/
theorem SameButScripts.isCoinStake (h : SameButScripts tx tx') :
    tx'.isCoinStake = tx.isCoinStake := by
  unfold CTransaction.isCoinStake
  rw [h.vout]
  have hprev := h.prevouts
  cases hvin : tx.vin with
  | nil =>
    rw [hvin, map_nil, map_eq_nil_iff] at hprev
    rw [hprev]
  | cons txin vin =>
    rw [hvin] at hprev
    obtain ⟨txin', vin', hvin', hhead, -⟩ := map_eq_cons_iff.1 hprev
    rw [hvin']
    cases tx.vout with
    | nil => rfl
    | cons txout vout =>
      cases vout with
      | nil => rfl
      | cons _ _ => simp only [hhead]

variable {stake : CTransaction}

/-- A coinstake is a draft that is paid, with scripts that sign its inputs. -/
theorem createCoinStake_draft {nBits nTime : ℕ} {nFees : ℤ} {key : CKey}
    (hbest : w.pindexBest = some p) (hentry : w.mapBlockIndex.lookup p = some best)
    (h : s.createCoinStake E S P w ctx nBits 1 nFees nTime = .ok (stake, key)) :
    ∃ d nCoinAge nReward xnodePayment,
      stakeDraft s.ismine s.view s.wallet (s.context E S P w ctx p nBits nTime 1) = some d ∧
      getCoinAge E w ctx w.txdb.fresh (some p) d.tx = .ok nCoinAge ∧
      getProofOfStakeReward best.nHeight best.nMoneySupply (wrap64 nCoinAge) nFees = nReward ∧
      0 < nReward ∧ SameButScripts (d.paid none (add64 d.nCredit nReward) xnodePayment) stake := by
  unfold Staker.createCoinStake at h
  simp only [hbest, hentry] at h
  cases hdraft : stakeDraft s.ismine s.view s.wallet (s.context E S P w ctx p nBits nTime 1) with
  | none => simp only [hdraft, reduceCtorEq] at h
  | some d =>
    simp only [hdraft] at h
    cases hkey : kernelKey S s.keystore d.scriptPubKeyKernel with
    | none => simp only [hkey, reduceCtorEq] at h
    | some found =>
      simp only [hkey, bXnodePayment_eq_false, except_bind_eq_ok,
        except_mapError_eq_ok, rejectIf_eq_ok, exists_const] at h
      obtain ⟨nCoinAge, hage, hpos, -, tx, hsigned, -, rfl, -⟩ := h
      exact ⟨d, nCoinAge, _, _, rfl, hage, rfl, not_le.1 hpos, signInputs_sameButScripts hsigned⟩

theorem Staker.OnChain.draft (h : s.OnChain w C.nTime)
    (hdraft : stakeDraft s.ismine s.view s.wallet C = some d) :
    ∀ out ∈ d.coins, StakeOnChain w out := by
  have hcoins := stakeDraft_coins s.ismine s.view s.wallet C
  rw [hdraft, Option.map_some] at hcoins
  exact fun out hmem => h out (createCoinStake_subset hcoins.symm out hmem)

theorem StakeDraft.isCoinBase_tx {out : COutput} {coins : List COutput}
    (hcoins : d.coins = out :: coins) (hnull : out.prevout.isNull = false) :
    d.tx.isCoinBase = false := by
  rw [StakeDraft.tx, hcoins]
  unfold CTransaction.isCoinBase
  cases coins with
  | nil => simp [hnull]
  | cons _ _ => rfl

theorem StakeDraft.Sound.spends {nTime : ℕ} {tx : CTransaction} {blockValue xnodePayment : ℤ}
    (h : d.Sound nTime) (hon : ∀ out ∈ d.coins, StakeOnChain w out)
    (hframe : SameButScripts (d.paid none blockValue xnodePayment) tx)
    (hstake : tx.isCoinStake = true) : tx.spends = d.coins.map COutput.prevout ∧
      valueIn w.files.diskTx w.chainView tx = d.nCredit ∧ 0 ≤ d.nCredit := by
  have hprevouts : tx.vin.map CTxIn.prevout = d.coins.map COutput.prevout := by
    rw [hframe.prevouts, StakeDraft.paid, StakeDraft.tx, map_map]
    rfl
  have hspends : tx.spends = d.coins.map COutput.prevout := by
    rw [CTransaction.spends, isCoinBase_of_isCoinStake hstake, ← hprevouts]
    rfl
  refine ⟨hspends, ?_, ?_⟩
  · rw [valueIn, hspends, h.credit, totalValue, map_map]
    exact congrArg List.sum (map_congr_left fun out hmem => (hon out hmem).outValue)
  · rw [h.credit]
    exact totalValue_nonneg fun out hmem => (hon out hmem).nonneg

/-- What `CreateCoinStake` makes. -/
theorem createCoinStake_staked {nBits nTime : ℕ} {nFees : ℤ} {key : CKey}
    (hbest : w.pindexBest = some p) (hentry : w.mapBlockIndex.lookup p = some best)
    (hchain : s.OnChain w nTime)
    (h : s.createCoinStake E S P w ctx nBits 1 nFees nTime = .ok (stake, key)) :
    Staked E w ctx best nTime nFees stake := by
  obtain ⟨d, nCoinAge, nReward, xnodePayment, hdraft, hage, hreward, hpos, hframe⟩ :=
    createCoinStake_draft hbest hentry h
  have hsound : d.Sound nTime :=
    stakeDraft_sound (C := s.context E S P w ctx p nBits nTime 1) rfl hdraft
  have hon := Staker.OnChain.draft (C := s.context E S P w ctx p nBits nTime 1) hchain hdraft
  obtain ⟨kernel, coins, hkernel⟩ := exists_cons_of_ne_nil hsound.coins
  have hnull := (hon kernel (by rw [hkernel]; exact mem_cons_self)).notNull
  have hstake : stake.isCoinStake = true := by
    rw [hframe.isCoinStake]
    exact StakeDraft.isCoinStake_paid hkernel hnull _ _
  obtain ⟨hspends, hvalue, hcredit⟩ := hsound.spends hon hframe hstake
  -- its age is that of the draft
  have hage' : getCoinAge E w ctx w.txdb.fresh w.pindexBest stake = .ok nCoinAge := by
    rw [hbest, ← hage]
    refine getCoinAge_prevouts E w ctx _ _ ?_ hframe.nTime hframe.prevouts
    rw [StakeDraft.isCoinBase_tx hkernel hnull, isCoinBase_of_isCoinStake hstake]
  refine ⟨hframe.nTime.trans hsound.time, hstake, ?_,
    ⟨nReward, ⟨nCoinAge, hage', hreward⟩, hpos, ?_⟩, ?_⟩
  · intro o ho
    rw [hspends] at ho
    obtain ⟨out, hmem, rfl⟩ := mem_map.1 ho
    obtain ⟨r, t, hr, -⟩ := (hon out hmem).record
    rw [COutput.prevout, hr]
    rfl
  · have hrange := wrap64_range (d.nCredit + nReward)
    rw [CTransaction.valueOut, hframe.vout, ← CTransaction.valueOut, hvalue]
    exact d.valueOut_paid (by rw [add64]; omega)
  · rw [hvalue]
    exact hcredit

/-! ### The signed block -/

/-- The time of a coinstake that is made now. -/
def stakeTime (ctx : Ctx) : ℕ := maskTime (ctx.getAdjustedTime % 2 ^ 32).toNat

/-- `SignBlock` returns `true` for a block that is no block of proof of stake yet. -/
theorem signBlock_spec {nLast nLast' nFees : ℤ} {template : CBlock}
    (hnew : template.isProofOfStake = false)
    (h : signBlock E S P w ctx s nLast template nFees = .ok (some block, nLast')) :
    ∃ stake key best vchBlockSig,
      s.createCoinStake E S P w ctx template.nBits 1 nFees (stakeTime ctx) = .ok (stake, key) ∧
      w.pindexBest.bind w.mapBlockIndex.lookup = some best ∧
      block = { template.withCoinStake E stake with vchBlockSig := vchBlockSig } := by
  unfold signBlock at h
  cases hout : template.vtx.head?.bind fun tx => tx.vout.head? with
  | none => simp only [hout, reduceCtorEq] at h
  | some txout =>
    simp only [hout, hnew, false_eq_true, if_false] at h
    split_ifs at h
    · cases h
    · obtain ⟨r, hr, h⟩ := except_bind_eq_ok.1 h
      cases r with
      | none => cases h
      | some made =>
        obtain ⟨stake, key⟩ := made
        cases hbest : w.pindexBest.bind w.mapBlockIndex.lookup with
        | none => simp only [hbest, reduceCtorEq] at h
        | some best =>
          simp only [hbest] at h
          split_ifs at h
          · simp only [ok.injEq, Prod.mk.injEq, Option.map_eq_some_iff] at h
            obtain ⟨⟨sig, -, rfl⟩, -⟩ := h
            exact ⟨stake, key, best, sig, tolerate_eq_some.1 hr, rfl, rfl⟩
          · cases h
    · cases h

theorem vtx_withCoinStake {template : CBlock} {cb stake : CTransaction} {payments : List CTransaction}
    (h : template.vtx = cb :: payments) :
    (template.withCoinStake E stake).vtx = { cb with nTime := stake.nTime } :: stake ::
      payments.filter fun tx => decide (tx.nTime ≤ stake.nTime) := by
  have hfilter : (payments.filter fun tx => !decide (tx.nTime > stake.nTime)) =
      payments.filter fun tx => decide (tx.nTime ≤ stake.nTime) := by
    refine filter_congr fun tx _ => ?_
    rw [← decide_not, decide_eq_decide]
    exact not_lt
  simp only [CBlock.withCoinStake, h, modify_zero_cons, filter_cons, lt_irrefl, decide_false, Bool.not_false, if_true, take_succ_cons, take_zero,
    drop_succ_cons, drop_zero, singleton_append]
  rw [← hfilter]

theorem createNewBlock_payments {key : Option (Vector UInt8 20)}
    (h : createNewBlock E ctx args heap w true key = .ok T) :
    ∃ p e a, w.pindexBest = some p ∧ w.mapBlockIndex.lookup p = some e ∧ Taken E w p a ∧
      T.pblock.vtx = newCoinBase ctx (e.nHeight + 1) none :: T.payments ∧ T.payments = a.vtx ∧
      T.nFees = a.nFees ∧ T.pblock.isProofOfStake = false := by
  obtain ⟨p, e, nBits, a, hbest, he, hT, -, htaken⟩ := createNewBlock_taken h
  have hvtx : T.pblock.vtx = newCoinBase ctx (e.nHeight + 1) none :: a.vtx := by
    rw [hT]
    rfl
  have hpay : T.payments = a.vtx := by rw [Template.payments, hvtx, tail_cons]
  refine ⟨p, e, a, hbest, he, htaken, by rw [hvtx, hpay], hpay, by rw [hT]; rfl, ?_⟩
  rw [CBlock.isProofOfStake, hvtx]
  cases hrest : a.vtx with
  | nil => rfl
  | cons tx vtx =>
    exact (htaken.candidates tx (by rw [hrest]; exact mem_cons_self)).notCoinStake

/-! ### Fees -/

/-- The fees of payments. -/
def feesOf (w : World) (vtx : List CTransaction) : ℤ :=
  paymentsIn w.files.diskTx w.chainView vtx - totalOut vtx

theorem feesOf_cons (w : World) (tx : CTransaction) (vtx : List CTransaction) :
    feesOf w (tx :: vtx) = valueIn w.files.diskTx w.chainView tx - tx.valueOut + feesOf w vtx := by
  rw [feesOf, paymentsIn_cons, totalOut_cons, feesOf]
  omega

/-- Every payment leaves a fee. -/
def LeaveFees (w : World) (vtx : List CTransaction) : Prop :=
  ∀ tx ∈ vtx, tx.valueOut < valueIn w.files.diskTx w.chainView tx

variable {vtx : List CTransaction}

theorem LeaveFees.nonneg (h : LeaveFees w vtx) : 0 ≤ feesOf w vtx := by
  induction vtx with
  | nil => exact le_rfl
  | cons tx vtx ih =>
    have hhead := h tx mem_cons_self
    have htail := ih fun x hx => h x (mem_cons_of_mem _ hx)
    rw [feesOf_cons]
    omega

theorem LeaveFees.filter_le (h : LeaveFees w vtx)
    (q : CTransaction → Bool) : feesOf w (vtx.filter q) ≤ feesOf w vtx := by
  induction vtx with
  | nil => exact le_rfl
  | cons tx vtx ih =>
    have hhead := h tx mem_cons_self
    have htail := ih fun x hx => h x (mem_cons_of_mem _ hx)
    rw [filter_cons, feesOf_cons]
    split_ifs
    · rw [feesOf_cons]
      omega
    · omega

/-- Without one of the payments there are less fees. -/
theorem LeaveFees.filter_lt (h : LeaveFees w vtx)
    {q : CTransaction → Bool} {tx : CTransaction} (hmem : tx ∈ vtx) (hq : q tx = false) :
    feesOf w (vtx.filter q) < feesOf w vtx := by
  induction vtx with
  | nil => exact absurd hmem not_mem_nil
  | cons x vtx ih =>
    have hhead := h x mem_cons_self
    have hrest : LeaveFees w vtx := fun y hy => h y (mem_cons_of_mem _ hy)
    rw [filter_cons, feesOf_cons]
    rcases mem_cons.1 hmem with rfl | hmem
    · rw [if_neg (by rw [hq]; exact false_ne_true)]
      have := hrest.filter_le q
      omega
    · have := ih hrest hmem
      split_ifs
      · rw [feesOf_cons]
        omega
      · omega

/-- The node has the chain on which the template was made; its files may have grown. -/
structure Unmoved (w w' : World) : Prop where
  best : w'.pindexBest = w.pindexBest
  view : w'.chainView = w.chainView
  read : ∀ pos tx, w.files.diskTx pos = some tx → w'.files.diskTx pos = some tx

theorem Taken.valueIn_unmoved {a : Assembly} (h : Taken E w p a) (hu : Unmoved w w')
    {tx : CTransaction} (hmem : tx ∈ a.vtx) :
    valueIn w'.files.diskTx w'.chainView tx = valueIn w.files.diskTx w.chainView tx := by
  refine valueIn_congr fun o ho => ?_
  obtain ⟨r, t, hs⟩ := (h.joins tx hmem).source ho
  have hs' : Source w'.files.diskTx w'.chainView o r t :=
    ⟨by rw [hu.view]; exact hs.record, hu.read _ _ hs.read, hs.unspent⟩
  rw [hs.outValue, hs'.outValue]

theorem Taken.feesOf_unmoved {a : Assembly} (h : Taken E w p a) (hu : Unmoved w w') :
    feesOf w' a.vtx = feesOf w a.vtx ∧ LeaveFees w' a.vtx := by
  refine ⟨?_, fun tx hmem => ?_⟩
  · rw [feesOf, feesOf, paymentsIn, paymentsIn, map_congr_left fun tx hmem =>
      h.valueIn_unmoved hu hmem]
  · rw [h.valueIn_unmoved hu hmem]
    exact h.paying tx hmem

/-! ### What the validator allows -/

/-- A signed block: the coinstake takes no more than the reward for its age and the fees of the
payments of the block; no transaction spends an output of a payment of the template that is left
out; none is later than the block; and the root is that of the transactions. -/
structure StakeAllowed (E : Env) (w : World) (ctx : Ctx) (T : Template) (block : CBlock) :
    Prop where
  reward : ∃ stake best nReward, block.vtx[1]? = some stake ∧ stake.isCoinStake = true ∧
    w.pindexBest.bind w.mapBlockIndex.lookup = some best ∧
    PaysReward E w ctx best stake (wrap64 (feesOf w (block.vtx.drop 2))) nReward ∧
    stake.valueOut - valueIn w.files.diskTx w.chainView stake ≤ nReward
  independent : ∀ erased ∈ T.payments, erased ∉ block.vtx →
    ∀ tx ∈ block.vtx, ∀ o ∈ tx.spends, o.hash ≠ E.txHash erased
  times : ∀ tx ∈ block.vtx, tx.nTime ≤ block.nTime
  root : block.hashMerkleRoot = block.buildMerkleTree E

/-- No payment of the template is later than a coinstake that is made now. -/
def Template.Early (T : Template) (ctx : Ctx) : Prop := ∀ tx ∈ T.payments, tx.nTime ≤ stakeTime ctx

/-- What the coinstake spends, its subsidy and the fees of the template add up in 64 bits. -/
def Template.StakeFits (E : Env) (w : World) (ctx : Ctx) (T : Template) (block : CBlock) : Prop :=
  ∀ stake best nSubsidy, block.vtx[1]? = some stake →
    w.pindexBest.bind w.mapBlockIndex.lookup = some best →
    PaysReward E w ctx best stake 0 nSubsidy →
      valueIn w.files.diskTx w.chainView stake + nSubsidy + feesOf w T.payments < 2 ^ 63

theorem wrap64_le {x : ℤ} (h : -9223372036854775808 ≤ x) : wrap64 x ≤ x := by
  unfold wrap64
  omega

theorem PaysReward.fees {nFees nReward nSubsidy : ℤ}
    (h : PaysReward E w ctx best stake (wrap64 nFees) nReward)
    (h0 : PaysReward E w ctx best stake 0 nSubsidy) :
    nReward = wrap64 (nSubsidy + nFees) ∧ -9223372036854775808 ≤ nSubsidy := by
  obtain ⟨nCoinAge, hage, rfl⟩ := h
  obtain ⟨nCoinAge', hage', rfl⟩ := h0
  obtain rfl := ok.inj (hage.symm.trans hage')
  rw [getProofOfStakeReward_fees _ (wrap64_wrap64 nFees), add64, wrap64_add_wrap]
  refine ⟨rfl, ?_⟩
  rw [getProofOfStakeReward_fees 0 (by decide), add64]
  exact (wrap64_range _).1

/-- A signed block: its first transaction, the coinstake and the payments that are not later. -/
structure SignedFrom (E : Env) (w : World) (ctx : Ctx) (T : Template) (block : CBlock)
    (cb stake : CTransaction) (best : CBlockIndex) : Prop where
  entry : w.pindexBest.bind w.mapBlockIndex.lookup = some best
  staked : Staked E w ctx best (stakeTime ctx) T.nFees stake
  vtx : block.vtx = cb :: stake :: T.payments.filter fun tx => decide (tx.nTime ≤ stakeTime ctx)
  coinBase : cb.nTime = stakeTime ctx ∧ cb.spends = []
  time : block.nTime = stakeTime ctx
  root : block.hashMerkleRoot = block.buildMerkleTree E

/-- The circumstances of a call of `SignBlock` that returns `true`: the template of
`CreateNewBlock`, the same chain, and coins of the wallet that are on it. -/
structure SignRun (E : Env) (S : SignEnv) (P : Kernel.Params) (w w' : World) (ctx ctx' : Ctx)
    (args : MinerArgs) (heap : HeapLayout) (s : Staker) (nLast nLast' : ℤ) (T : Template)
    (block : CBlock) : Prop where
  template : ∃ key, createNewBlock E ctx args heap w true key = .ok T
  unmoved : Unmoved w w'
  coins : s.OnChain w' (stakeTime ctx')
  signed : signBlock E S P w' ctx' s nLast T.pblock T.nFees = .ok (some block, nLast')

variable {nLast nLast' : ℤ}

theorem newCoinBase_spends (ctx : Ctx) (nHeight nTime : ℕ) :
    ({ newCoinBase ctx nHeight none with nTime := nTime } : CTransaction).spends = [] := by
  rfl

theorem SignedFrom.times {cb stake : CTransaction} (h : SignedFrom E w ctx T block cb stake best) :
    ∀ tx ∈ block.vtx, tx.nTime ≤ block.nTime := by
  rw [h.vtx, h.time]
  intro tx hmem
  rcases mem_cons.1 hmem with rfl | hmem
  · exact h.coinBase.1.le
  rcases mem_cons.1 hmem with rfl | hmem
  · exact h.staked.time.le
  · simpa using (mem_filter.1 hmem).2

section

variable (h : SignRun E S P w w' ctx ctx' args heap s nLast nLast' T block)
include h

theorem SignRun.signedFrom : ∃ cb stake best, SignedFrom E w' ctx' T block cb stake best := by
  obtain ⟨key, hT⟩ := h.template
  obtain ⟨p, e, a, -, -, -, hvtx, -, -, hnew⟩ := createNewBlock_payments hT
  obtain ⟨stake, key', best, sig, hmade, hbest, rfl⟩ := signBlock_spec hnew h.signed
  obtain ⟨q, hq, hentry⟩ := Option.bind_eq_some_iff.1 hbest
  have hstaked := createCoinStake_staked hq hentry h.coins hmade
  have hblock := @vtx_withCoinStake E T.pblock _ stake _ hvtx
  rw [hstaked.time] at hblock
  exact ⟨_, stake, best, hbest, hstaked, hblock, ⟨rfl, newCoinBase_spends _ _ _⟩, hstaked.time, rfl⟩

/-- **If no payment is too late, the block pays what the validator allows.** -/
theorem SignRun.allowed (hearly : T.Early ctx') : StakeAllowed E w' ctx' T block := by
  obtain ⟨cb, stake, best, hs⟩ := h.signedFrom
  obtain ⟨key, hT⟩ := h.template
  obtain ⟨p, e, a, -, -, htaken, -, hpay, hfees, -⟩ := createNewBlock_payments hT
  have hall : (T.payments.filter fun tx => decide (tx.nTime ≤ stakeTime ctx')) = T.payments :=
    filter_eq_self.2 fun tx hmem => decide_eq_true (hearly tx hmem)
  have hvtx := hs.vtx
  rw [hall] at hvtx
  -- all fees of the template are fees of the block
  have hsame : wrap64 (feesOf w' (block.vtx.drop 2)) = T.nFees := by
    rw [hvtx, drop_succ_cons, drop_succ_cons, drop_zero, hpay,
      (htaken.feesOf_unmoved h.unmoved).1, hfees, htaken.fees]
    rfl
  obtain ⟨nReward, hreward, hpos, hout⟩ := hs.staked.reward
  have hget : block.vtx[1]? = some stake := by
    rw [hvtx]
    rfl
  rw [← hsame] at hreward
  refine ⟨⟨stake, best, nReward, hget, hs.staked.isCoinStake, hs.entry, hreward, ?_⟩, ?_, hs.times,
    hs.root⟩
  · have hin := hs.staked.valueIn_nonneg
    have hle := @wrap64_le (valueIn w'.files.diskTx w'.chainView stake + nReward) (by omega)
    omega
  · -- nothing is erased
    intro erased hmem hnot
    refine absurd ?_ hnot
    rw [hvtx]
    exact mem_cons_of_mem _ (mem_cons_of_mem _ hmem)

/-- A block that pays what is allowed has all payments of the template. -/
theorem SignRun.early (hfit : T.StakeFits E w' ctx' block)
    (hallowed : StakeAllowed E w' ctx' T block) : T.Early ctx' := by
  obtain ⟨cb, stake, best, hs⟩ := h.signedFrom
  obtain ⟨key, hT⟩ := h.template
  obtain ⟨p, e, a, -, -, htaken, -, hpay, hfees, -⟩ := createNewBlock_payments hT
  obtain ⟨stake', best', nReward', hstake', -, hbest', hreward', hle⟩ := hallowed.reward
  have hget : block.vtx[1]? = some stake := by
    rw [hs.vtx]
    rfl
  obtain rfl := some.inj (hget.symm.trans hstake')
  obtain rfl := some.inj (hs.entry.symm.trans hbest')
  obtain ⟨nReward, ⟨nCoinAge, hage, hpays⟩, hpos, hout⟩ := hs.staked.reward
  have hreward : PaysReward E w' ctx' best stake T.nFees nReward := ⟨nCoinAge, hage, hpays⟩
  have hsubsidy : PaysReward E w' ctx' best stake 0 _ := ⟨nCoinAge, hage, rfl⟩
  have hfits := hfit stake best _ hget hs.entry hsubsidy
  -- the two rewards, with the fees of the template and with those of the block
  obtain ⟨hunmoved, hleave⟩ := htaken.feesOf_unmoved h.unmoved
  have hnFees : T.nFees = wrap64 (feesOf w' T.payments) := by
    rw [hpay, hunmoved, hfees, htaken.fees]
    rfl
  rw [← hpay] at hleave
  rw [hnFees] at hreward
  have hblock : block.vtx.drop 2 = T.payments.filter fun tx =>
    decide (tx.nTime ≤ stakeTime ctx') := by
    rw [hs.vtx, drop_succ_cons, drop_succ_cons, drop_zero]
  rw [hblock] at hreward'
  obtain ⟨hrew, hlow⟩ := hreward.fees hsubsidy
  obtain ⟨hrew', -⟩ := hreward'.fees hsubsidy
  intro tx hmem
  by_contra hlate
  have hless := hleave.filter_lt hmem (q := fun tx => decide (tx.nTime ≤ stakeTime ctx'))
    (decide_eq_false hlate)
  have hsome : LeaveFees w' (T.payments.filter fun tx => decide (tx.nTime ≤ stakeTime ctx')) :=
    fun x hx => hleave x (mem_of_mem_filter hx)
  have hnonneg := hsome.nonneg
  have hin := hs.staked.valueIn_nonneg
  rw [wrap64_of_range (by omega) (by omega)] at hrew hrew'
  rw [wrap64_of_range (by omega) (by omega)] at hout
  omega

/-- **The coinstake pays what the validator allows if no payment of the template is later than the
rounded time**, and, while the amounts fit into 64 bits, only then: the fees of erased payments are
paid out. -/
theorem signBlock_allowed_iff : (T.Early ctx' → StakeAllowed E w' ctx' T block) ∧
      (T.StakeFits E w' ctx' block → (StakeAllowed E w' ctx' T block ↔ T.Early ctx')) :=
  ⟨h.allowed, fun hfit => ⟨h.early hfit, h.allowed⟩⟩

end

/-! ### Savings -/

namespace Simnet

/-- A transaction with a small output and the savings of the wallet. -/
def savingsTx : CTransaction where
  nVersion := 1
  nTime := 1
  vin := [⟨⟨7, 0⟩, [], uintMax⟩]
  vout := [⟨1000000, [0x51]⟩, ⟨10000000000, OneKey.payToKey⟩]
  nLockTime := 0

/-- A payment that leaves the small output as a fee. -/
def lastPayment : CTransaction where
  nVersion := 1
  nTime := 8018
  vin := [⟨⟨1, 0⟩, [], uintMax⟩]
  vout := [⟨0, []⟩]
  nLockTime := 0

/-- A node with the savings on disk and the payment in its pool. -/
def savingsWorld : World := { bankWorld 0 0 fun _ => [] with
  mempool := CTxMemPool.empty.addUnchecked 8018 lastPayment
  txdb := ⟨AList.insert (.tx 1) (CTxIndex.ofOutputs bankPos 2 : DbKey.Val (.tx 1)) ∅, none⟩
  files := ⟨1, [⟨1, 8, ⟨⟨7, 0, 0, 1, 0x207fffff, 0⟩, [savingsTx], []⟩⟩]⟩ }

/-- The wallet that has the savings. -/
def saver : Staker where
  ismine := ⟨fun txout => txout.scriptPubKey == OneKey.payToKey, 0⟩
  view := { deepView with
    isProtocolV3 := fun nTime => isProtocolV3 env nTime
    nStakeMinAge := nStakeMinAge }
  wallet := ⟨AList.singleton 1 (.ofTx savingsTx)⟩
  keystore := OneKey.store
  nBalance := 10000000000
  nReserveBalance := 0
  arrange := id
  arrange_perm := List.Perm.refl
  payee := none

/-- A node whose clock shows `nTime`. -/
def clock (nTime : ℕ) : Ctx := { context false false with
  getTime := nTime
  getAdjustedTime := nTime }

/-- The template of the node at the time 8020. -/
def savingsTemplate : Except Stop Template :=
  createNewBlock env (clock 8020) {} plainHeap savingsWorld true none

/-- The block that is signed at the time `nTime`. -/
def savingsBlock (nTime : ℕ) (T : Template) : Except Stop (Option CBlock × ℤ) :=
  signBlock env OneKey.env Kernel.zeroParams savingsWorld (clock nTime) saver 0 T.pblock T.nFees

theorem saver_onChain {nTime : ℕ} (h : saver.wallet.stakeable saver.ismine saver.view nTime =
    [⟨.ofTx savingsTx, 1, 1, 1000⟩]) : saver.OnChain savingsWorld nTime := by
  intro out hmem
  rw [h] at hmem
  obtain rfl := mem_singleton.1 hmem
  have hrecord : savingsWorld.chainView 1 = some (.ofOutputs bankPos 2) := by decide
  have hread : savingsWorld.files.diskTx bankPos = some savingsTx := by decide
  exact ⟨rfl, by decide, _, _, hrecord, hread, by decide⟩

/-- A block that is signed. -/
theorem exists_signRun {nTime : ℕ} {q : Template → CBlock → Bool}
    (h : (savingsTemplate.bind fun T => (savingsBlock nTime T).map fun r =>
    r.1.any (q T)).toOption = some true)
    (hcoins : saver.wallet.stakeable saver.ismine saver.view (stakeTime (clock nTime)) =
      [⟨.ofTx savingsTx, 1, 1, 1000⟩]) :
    ∃ T block nLast, savingsTemplate = .ok T ∧ q T block = true ∧
      SignRun env OneKey.env Kernel.zeroParams savingsWorld savingsWorld (clock 8020)
      (clock nTime) {}
        plainHeap saver 0 nLast T block := by
  cases hT : savingsTemplate with
  | error e => rw [hT] at h; cases h
  | ok T =>
    rw [hT] at h
    cases hblock : savingsBlock nTime T with
    | error e => simp [Except.bind, Except.map, Except.toOption, hblock] at h
    | ok r =>
      obtain ⟨signed, nLast⟩ := r
      cases signed with
      | none => simp [Except.bind, Except.map, Except.toOption, hblock] at h
      | some block =>
        have hq : q T block = true := by
          simpa [Except.bind, Except.map, Except.toOption, hblock] using h
        have hsame : Unmoved savingsWorld savingsWorld := ⟨rfl, rfl, fun _ _ h => h⟩
        exact ⟨T, block, nLast, rfl, hq, ⟨none, hT⟩, hsame, saver_onChain hcoins, hblock⟩

/-- The coinstake takes more than the reward for the payments of the block. -/
def overpays (block : CBlock) : Bool :=
  block.vtx[1]?.any fun stake =>
    let nCoinAge := getCoinAge env savingsWorld (clock 8020) savingsWorld.txdb.fresh
      savingsWorld.pindexBest stake
    nCoinAge.toOption.any fun nCoinAge : ℕ =>
      decide (getProofOfStakeReward bankEntry.nHeight bankEntry.nMoneySupply (wrap64 nCoinAge)
          (wrap64 (feesOf savingsWorld (block.vtx.drop 2))) <
        stake.valueOut - valueIn savingsWorld.files.diskTx savingsWorld.chainView stake)

end Simnet

open Simnet

/-- A payment of the time 8018 is in the block that is signed at 8032. -/
theorem signBlock_allowed_savings : ∃ T block, savingsTemplate = .ok T ∧
    T.payments.map CTransaction.nTime = [8018] ∧ block.vtx.length = 3 ∧
    StakeAllowed env savingsWorld (clock 8032) T block := by
  obtain ⟨T, block, nLast, hT, hq, hrun⟩ := @exists_signRun 8032
    (fun T block => decide (T.payments.map CTransaction.nTime = [8018] ∧ block.vtx.length = 3))
    (by decide +kernel) (by decide +kernel)
  obtain ⟨hpay, hlength⟩ := of_decide_eq_true hq
  refine ⟨T, block, hT, hpay, hlength, (signBlock_allowed_iff hrun).1 fun tx hmem => ?_⟩
  have htime : tx.nTime ∈ T.payments.map CTransaction.nTime := mem_map_of_mem hmem
  rw [hpay, mem_singleton] at htime
  rw [htime]
  decide

/-- **The fee of a payment that is erased is paid out.**  At 8020 the coinstake gets the time 8016; the
payment of the time 8018 does not get into the block, and the coinstake takes its fee. -/
theorem signBlock_overpays :
    ¬ ∀ (E : Env) (S : SignEnv) (P : Kernel.Params) (w w' : World) (ctx ctx' : Ctx) (args : MinerArgs)
      (heap : HeapLayout) (s : Staker) (nLast nLast' : ℤ) (T : Template) (block : CBlock),
      SignRun E S P w w' ctx ctx' args heap s nLast nLast' T block → StakeAllowed E w' ctx' T block := by
  intro hall
  obtain ⟨T, block, nLast, hT, hq, hrun⟩ := @exists_signRun 8020 (fun _ => overpays)
    (by decide +kernel) (by decide +kernel)
  have hallowed := hall _ _ _ _ _ _ _ _ _ _ _ _ _ _ hrun
  obtain ⟨stake, best, nReward, hget, -, hbest, ⟨nCoinAge, hage, rfl⟩, hle⟩ := hallowed.reward
  obtain rfl : bankEntry = best := some.inj hbest
  simp only [overpays, hget, Option.any_some, hage, Except.toOption, decide_eq_true_eq] at hq
  omega

end Espers
