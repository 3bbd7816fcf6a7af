import Espers.Stake.Reward

/-!
# Stake kernels

A coinstake must hash below a target that grows with the value it spends.  The staker searches for a
time with `CheckKernel`, the validator checks the coinstake with `CheckProofOfStake`.  Both read the
previous transaction and the header of its block, test its age, and call `CheckStakeKernelHash`; the
validator computes the age in `unsigned int`, the staker in `int64_t`.

* `validatorAge_iff` : the two tests of the age agree below `2 ^ 32 - nStakeMinAge`.
* `checkProofOfStake_iff` : **the validator accepts what the staker finds**, if it is signed.

What is hashed is a parameter (`Kernel.Params`), as is the failure of a header read.
-/

namespace Espers

open Exec Simnet Option Bool

namespace Kernel

/-! ### The source -/

/-- The stake modifier that a kernel is hashed with; before protocol v3 with the time of the block
of the previous transaction. -/
inductive StakeModifier where
  | v3 (bnStakeModifierV2 : Uint256)
  | v2 (nStakeModifier nTimeBlockFrom : ℕ)
  deriving DecidableEq

/-- What `CheckStakeKernelHash` writes to the stream it hashes. -/
structure KernelStream where
  modifier : StakeModifier
  nTimePrev : ℕ
  prevout : COutPoint
  nTimeTx : ℕ
  deriving DecidableEq

/-- The hash of a kernel, and the failure to read a block header from a file. -/
structure Params where
  /-- `Hash(ss.begin(), ss.end())`. -/
  hash : KernelStream → Uint256
  /-- The read of a header at a file and an offset fails. -/
  headerReadFails : ℕ → ℕ → Bool

/-- `SCRIPT_VERIFY_NONE`. -/
def scriptVerifyNone : ℕ := 0

/-- `CBigNum::getuint256`: the low bits of the magnitude. -/
def getuint256 (bn : ℤ) : Uint256 := BitVec.ofNat 256 bn.natAbs

/-- `CBlock::ReadFromDisk(nFile, nBlockPos, false)`. -/
def readBlockHeader (K : Params) (w : World) (pos : CDiskTxPos) : Option CBlockHeader :=
  if K.headerReadFails pos.nFile pos.nBlockPos then none
  else (w.files.readBlock pos.nFile pos.nBlockPos).map CBlock.toCBlockHeader

/-- `IsConfirmedInNPrevBlocks(txindex, pindexPrev, nStakeMinConfirmations - 1, nDepth)`. -/
def stakeDepth (w : World) (pindexPrev : Uint256) (txindex : CTxIndex) : Option ℕ :=
  (w.mapBlockIndex.lookup pindexPrev).bind fun e =>
    isConfirmedInNPrevBlocks w.mapBlockIndex txindex.pos e.nHeight (nStakeMinConfirmations - 1)
      nStakeMinConfirmations (some pindexPrev)

/-- `CheckStakeKernelHash`: `hashProofOfStake` and `targetProofOfStake`, when it returns `true`. -/
def checkStakeKernelHash (E : Env) (K : Params) (w : World) (pindexPrev : Uint256) (nBits : ℕ)
    (blockFrom : CBlockHeader) (txPrev : CTransaction) (prevout : COutPoint) (nTimeTx : ℕ) :
    Except Stop (Uint256 × Uint256) := do
  rejectIf (nTimeTx < txPrev.nTime) (.error "CheckStakeKernelHash() : nTime violation")
  match txPrev.vout[prevout.n]?, w.mapBlockIndex.lookup pindexPrev with
  | some txout, some e => do
    let bnTarget := setCompact nBits * txout.nValue
    let modifier :=
      if isProtocolV3 E nTimeTx then StakeModifier.v3 e.bnStakeModifierV2
      else .v2 e.nStakeModifier (blockFrom.nTime % 2 ^ 32)
    let hashProofOfStake := K.hash ⟨modifier, txPrev.nTime, prevout, nTimeTx⟩
    rejectIf ((hashProofOfStake.toNat : ℤ) > bnTarget) .refuse
    .ok (hashProofOfStake, getuint256 bnTarget)
  | _, _ => .error (.crash "null pointer")

/-- The age test of `CheckProofOfStake`, with its sum in `unsigned int`. -/
def validatorAge (E : Env) (w : World) (pindexPrev : Uint256) (txindex : CTxIndex)
    (block : CBlockHeader) (nTime : ℕ) : Except Stop Unit :=
  if isProtocolV3 E nTime then
    rejectIf ((stakeDepth w pindexPrev txindex).isSome)
      (.dos 100 "CheckProofOfStake() : tried to stake at depth")
  else
    let nTimeBlockFrom := block.nTime % 2 ^ 32
    rejectIf ((nTimeBlockFrom + nStakeMinAge) % 2 ^ 32 > nTime)
      (.error "CheckProofOfStake() : min age violation")

/-- `CheckProofOfStake`. -/
def checkProofOfStake (E : Env) (K : Params) (w : World) (ctx : Ctx) (pindexPrev : Uint256)
    (tx : CTransaction) (nBits : ℕ) : Except Stop (Uint256 × Uint256) := do
  rejectIf (tx.isCoinStake = false) (.error "CheckProofOfStake() : called on non-coinstake")
  match tx.vin with
  | [] => .error (.crash "vin[0]")
  | txin :: _ =>
    match readPrevTx w ctx w.txdb.fresh txin.prevout with
    | none => .error (.dos 1 "CheckProofOfStake() : INFO: read txPrev failed")
    | some (txindex, txPrev) => do
      rejectIf (E.verifySignature txPrev tx 0 scriptVerifyNone = false)
        (.dos 100 "CheckProofOfStake() : VerifySignature failed on coinstake")
      match readBlockHeader K w txindex.pos with
      | none => .error .refuse
      | some block => do
        validatorAge E w pindexPrev txindex block tx.nTime
        (checkStakeKernelHash E K w pindexPrev nBits block txPrev txin.prevout tx.nTime).mapError <|
          Stop.report (.dos 1 "CheckProofOfStake() : INFO: check kernel failed on coinstake")

/-- The age test of `CheckKernel`, with its sum in `int64_t`. -/
def stakerAge (E : Env) (w : World) (pindexPrev : Uint256) (txindex : CTxIndex)
    (block : CBlockHeader) (nTime : ℤ) : Except Stop Unit :=
  if isProtocolV3 E nTime then rejectIf ((stakeDepth w pindexPrev txindex).isSome) .refuse
  else rejectIf (add64 block.nTime nStakeMinAge > nTime) .refuse

/-- `CheckKernel`: what it has written to `pBlockTime`, when it returns `true`.  `nTime` is narrowed
to `unsigned int` for the hash. -/
def checkKernel (E : Env) (K : Params) (w : World) (ctx : Ctx) (pindexPrev : Uint256) (nBits : ℕ)
    (nTime : ℤ) (prevout : COutPoint) : Except Stop ℤ :=
  match readPrevTx w ctx w.txdb.fresh prevout with
  | none => .error .refuse
  | some (txindex, txPrev) =>
    match readBlockHeader K w txindex.pos with
    | none => .error .refuse
    | some block => do
      stakerAge E w pindexPrev txindex block nTime
      let _ ← checkStakeKernelHash E K w pindexPrev nBits block txPrev prevout
        (nTime % 2 ^ 32).toNat
      .ok block.nTime

/-! ### Agreement -/

variable {E : Env} {K : Params} {w : World} {ctx : Ctx} {p : Uint256} {nBits nTime : ℕ}

/-- **The tests of the age agree** for times below `2 ^ 32 - nStakeMinAge`. -/
theorem validatorAge_iff (E : Env) (w : World) (p : Uint256) (txindex : CTxIndex)
    {block : CBlockHeader} (nTime : ℕ) (hb : block.nTime < 2 ^ 32 - nStakeMinAge) :
    validatorAge E w p txindex block nTime = .ok () ↔
    stakerAge E w p txindex block nTime = .ok () := by
  unfold validatorAge stakerAge
  split_ifs with hv3
  · rw [rejectIf_eq_ok, rejectIf_eq_ok]
  · -- neither sum wraps
    have h32 : (block.nTime % 2 ^ 32 + nStakeMinAge) % 2 ^ 32 = block.nTime + nStakeMinAge :=
      by omega
    have h64 : add64 block.nTime nStakeMinAge = block.nTime + nStakeMinAge :=
      wrap64_of_range (by omega) (by omega)
    simp only [rejectIf_eq_ok]
    omega

/-- The coinstake is signed for the transaction it spends. -/
def Signed (E : Env) (w : World) (ctx : Ctx) (tx : CTransaction) (prevout : COutPoint) : Prop :=
  ∃ r, readPrevTx w ctx w.txdb.fresh prevout = some r ∧
    E.verifySignature r.2 tx 0 scriptVerifyNone = true

/-- The blocks whose headers are read for `prevout` have early times. -/
def EarlyBlock (K : Params) (w : World) (ctx : Ctx) (prevout : COutPoint) : Prop :=
  ∀ r block, readPrevTx w ctx w.txdb.fresh prevout = some r →
    readBlockHeader K w r.1.pos = some block → block.nTime < 2 ^ 32 - nStakeMinAge

/-- What a kernel is found with: the previous transaction and its record, and the header of its
block, old enough, with a hash below the target. -/
structure Found (E : Env) (K : Params) (w : World) (ctx : Ctx) (p : Uint256) (nBits nTime : ℕ)
    (prevout : COutPoint) (txindex : CTxIndex) (txPrev : CTransaction) (block : CBlockHeader) :
    Prop where
  prev : readPrevTx w ctx w.txdb.fresh prevout = some (txindex, txPrev)
  header : readBlockHeader K w txindex.pos = some block
  age : stakerAge E w p txindex block nTime = .ok ()
  hash : ∃ proof, checkStakeKernelHash E K w p nBits block txPrev prevout nTime = .ok proof

theorem checkKernel_iff (hn : nTime < 2 ^ 32) {prevout : COutPoint} :
    (∃ nBlockTime, checkKernel E K w ctx p nBits nTime prevout = .ok nBlockTime) ↔
      ∃ txindex txPrev block, Found E K w ctx p nBits nTime prevout txindex txPrev block := by
  have hnarrow : ((nTime : ℤ) % 2 ^ 32).toNat = nTime := by omega
  unfold checkKernel
  rw [hnarrow]
  constructor
  · rintro ⟨nBlockTime, h⟩
    cases hprev : readPrevTx w ctx w.txdb.fresh prevout with
    | none => simp only [hprev] at h; cases h
    | some r =>
      obtain ⟨txindex, txPrev⟩ := r
      simp only [hprev] at h
      cases hblock : readBlockHeader K w txindex.pos with
      | none => simp only [hblock] at h; cases h
      | some block =>
        simp only [hblock, except_bind_eq_ok] at h
        obtain ⟨⟨⟩, hage, proof, hhash, -⟩ := h
        exact ⟨txindex, txPrev, block, hprev, hblock, hage, proof, hhash⟩
  · rintro ⟨txindex, txPrev, block, hprev, hblock, hage, proof, hhash⟩
    refine ⟨block.nTime, ?_⟩
    simp only [hprev, hblock, hage, hhash, except_ok_bind]

theorem checkProofOfStake_found {tx : CTransaction} {txin : CTxIn} {vin : List CTxIn}
    (hs : tx.isCoinStake = true) (hv : tx.vin = txin :: vin)
    (hb : EarlyBlock K w ctx txin.prevout) :
    (∃ proof, checkProofOfStake E K w ctx p tx nBits = .ok proof) ↔
      ∃ txindex txPrev block, Found E K w ctx p nBits tx.nTime txin.prevout txindex txPrev block ∧
        E.verifySignature txPrev tx 0 scriptVerifyNone = true := by
  unfold checkProofOfStake
  rw [hv, rejectIf_of_not (by rw [hs]; exact Bool.noConfusion), except_ok_bind]
  constructor
  · rintro ⟨proof, h⟩
    cases hprev : readPrevTx w ctx w.txdb.fresh txin.prevout with
    | none => simp only [hprev] at h; cases h
    | some r =>
      obtain ⟨txindex, txPrev⟩ := r
      simp only [hprev, except_bind_eq_ok, rejectIf_eq_ok] at h
      obtain ⟨-, hsig, h⟩ := h
      cases hblock : readBlockHeader K w txindex.pos with
      | none => simp only [hblock] at h; cases h
      | some block =>
        simp only [hblock, except_bind_eq_ok, except_mapError_eq_ok] at h
        obtain ⟨⟨⟩, hage, hhash⟩ := h
        have hearly := hb _ _ hprev hblock
        exact ⟨txindex, txPrev, block,
          ⟨hprev, hblock, (validatorAge_iff E w p txindex tx.nTime hearly).1 hage, proof, hhash⟩,
          by simpa using hsig⟩
  · rintro ⟨txindex, txPrev, block, ⟨hprev, hblock, hage, proof, hhash⟩, hsig⟩
    have hearly := hb _ _ hprev hblock
    have hage' := (validatorAge_iff E w p txindex tx.nTime hearly).2 hage
    refine ⟨proof, ?_⟩
    simp only [hprev, hblock, hage', hhash, hsig, rejectIf_of_not, except_ok_bind, Except.mapError,
      true_eq_false, not_false_eq_true]

/-- **The validator accepts what the staker finds.**  For times below `2 ^ 32 - nStakeMinAge` a
coinstake passes `CheckProofOfStake` exactly if `CheckKernel` finds its kernel and it is signed, and
the tests of the age agree for every record, block and time. -/
theorem checkProofOfStake_iff (E : Env) (K : Params) (w : World) (ctx : Ctx)
    (p : Uint256) (nBits : ℕ) {tx : CTransaction} {txin : CTxIn} {vin : List CTxIn}
    (hs : tx.isCoinStake = true) (hv : tx.vin = txin :: vin) (ht : tx.nTime < 2 ^ 32 - nStakeMinAge)
    (hb : EarlyBlock K w ctx txin.prevout) :
    ((∃ proof, checkProofOfStake E K w ctx p tx nBits = .ok proof) ↔
      (∃ nBlockTime, checkKernel E K w ctx p nBits tx.nTime txin.prevout = .ok nBlockTime) ∧
        Signed E w ctx tx txin.prevout) ∧
    ∀ (txindex : CTxIndex) (block : CBlockHeader) (nTime : ℕ), block.nTime < 2 ^ 32 - nStakeMinAge →
      (validatorAge E w p txindex block nTime = .ok () ↔
      stakerAge E w p txindex block nTime = .ok ()) := by
  refine ⟨?_, fun txindex block nTime => validatorAge_iff E w p txindex nTime⟩
  have h32 : tx.nTime < 2 ^ 32 := by omega
  rw [checkProofOfStake_found hs hv hb, checkKernel_iff h32]
  constructor
  · rintro ⟨txindex, txPrev, block, hfound, hsig⟩
    exact ⟨⟨txindex, txPrev, block, hfound⟩, _, hfound.prev, hsig⟩
  · rintro ⟨⟨txindex, txPrev, block, hfound⟩, r, hr, hsig⟩
    obtain rfl := some.inj (hfound.prev.symm.trans hr)
    exact ⟨txindex, txPrev, block, hfound, hsig⟩

/-- Every kernel hashes to 0, and headers can be read. -/
def zeroParams : Params := ⟨fun _ => 0, fun _ _ => false⟩

theorem checkKernel_hoard :
    (checkKernel env zeroParams (hoardWorld 100) (context false false) 1 0x207fffff 172801
    ⟨1, 0⟩).isOk = true := by decide

theorem earlyBlock_hoard : EarlyBlock zeroParams (hoardWorld 100) (context false false) ⟨1, 0⟩ := by
  intro r block hr hblock
  have hall : (readPrevTx (hoardWorld 100) (context false false)
    (hoardWorld 100).txdb.fresh ⟨1, 0⟩).all
      (fun r => (readBlockHeader zeroParams (hoardWorld 100) r.1.pos).all fun block =>
        block.nTime < 2 ^ 32 - nStakeMinAge) = true := by decide
  rw [hr, all_some, hblock, all_some] at hall
  simpa using hall

/-- The stake of that output is accepted. -/
theorem checkProofOfStake_hoard : ∃ proof, checkProofOfStake env zeroParams (hoardWorld 100)
    (context false false) 1 (hoardStake 172801 100) 0x207fffff = .ok proof := by
  have hsigned : Signed env (hoardWorld 100) (context false false) (hoardStake 172801 100) ⟨1, 0⟩ :=
    ⟨_, rfl, rfl⟩
  have hkernel : ∃ nBlockTime, checkKernel env zeroParams (hoardWorld 100)
    (context false false) 1 0x207fffff
      172801 ⟨1, 0⟩ = .ok nBlockTime := by
    have h := checkKernel_hoard
    revert h
    cases checkKernel env zeroParams (hoardWorld 100)
      (context false false) 1 0x207fffff 172801 ⟨1, 0⟩ with
    | ok t => exact fun _ => ⟨t, rfl⟩
    | error e => exact fun h => Bool.noConfusion h
  exact (@checkProofOfStake_iff env zeroParams (hoardWorld 100) (context false false) 1 0x207fffff
    (hoardStake 172801 100) _ _ rfl rfl (by decide) earlyBlock_hoard).1.2 ⟨hkernel, hsigned⟩

end Kernel

end Espers
