import Espers.Chain.Reorganize
import Espers.Core.Script

/-!
# The best chain

`setBestChain` and `setBestChainInner` are `CBlock::SetBestChain` and `CBlock::SetBestChainInner`,
`addToBlockIndex` is `CBlock::AddToBlockIndex` and `acceptBlock` is `CBlock::AcceptBlock`.

Where a branch is several blocks ahead, `SetBestChain` reorganises to the first block of it that has
more trust than the best chain and connects the rest afterwards, in one batch each; it goes on to
make the last block the best one whether or not these postponed connects succeed.
-/

namespace Espers

open Exec

/-! ### Setting the best chain -/

/-- Note the trust of an invalid chain; the record is written through a handle of its own. -/
def World.noteInvalid (w : World) (nChainTrust : Uint256) : World :=
  if nChainTrust > w.nBestInvalidTrust then
    { w with
      nBestInvalidTrust := nChainTrust
      txdb := { w.txdb with pdb := (CTxDB.writeBestInvalidTrust w.txdb.fresh nChainTrust).pdb } }
  else w

/-- `InvalidChainFound`. -/
def invalidChainFound (p : Uint256) : Node Unit := do
  let new ← deref (some p)
  modify fun w => w.noteInvalid new.nChainTrust
  -- the block trusts that are logged
  let _ ← deref new.pprev
  let best ← bestIndex
  if best.nHeight ≠ 0 then do
    let _ ← deref best.pprev
  else pure ()

/-- `mempool.remove(tx)` for every transaction of a block. -/
def removeBlockFromPool (E : Env) : List CTransaction → Node Unit
  | [] => pure ()
  | tx :: vtx => do
    removeFromPool E tx
    removeBlockFromPool E vtx

/-- `CBlock::SetBestChainInner`. -/
def setBestChainInner (E : Env) (ctx : Ctx) (block : CBlock) (p : Uint256) : Node Unit := do
  let connected ← returned (connectBlock E ctx block p)
  if !connected then do
    txnAbort
    invalidChainFound p
    throw .refuse
  else do
    modifyDb fun txdb => txdb.writeHashBestChain (block.getHash E)
    txnCommit ctx (.error "SetBestChain() : TxnCommit failed")
    let e ← deref (some p)
    let _ ← deref e.pprev
    modify fun w => w.setPrevNext p (some p)
    removeBlockFromPool E block.vtx

/-- The loop of `SetBestChain` that looks for the first block of the branch with more trust than the
best chain.  The result is that block and the blocks after it, lowest first. -/
def postpone (m : BlockMap) (bestTrust : Uint256) :
    ℕ → Uint256 → List Uint256 → Option (Uint256 × List Uint256)
  | 0, _, _ => none
  | fuel + 1, p, vpindexSecondary =>
    match m.lookup p with
    | none => none
    | some e =>
      match e.pprev with
      | none => some (p, vpindexSecondary)
      | some q =>
        match m.lookup q with
        | none => none
        | some d =>
          if d.nChainTrust > bestTrust then postpone m bestTrust fuel q (p :: vpindexSecondary)
          else some (p, vpindexSecondary)

/-- The loop of `SetBestChain` over the postponed blocks; errors are not fatal here. -/
def connectPostponed (E : Env) (ctx : Ctx) : List Uint256 → Node Unit
  | [] => pure ()
  | p :: ps => do
    let e ← deref (some p)
    let w ← get
    match readBlockFromDisk E ctx w e with
    | none => pure ()
    | some block => do
      txnBegin
      let connected ← returned (setBestChainInner E ctx block p)
      if connected then connectPostponed E ctx ps else pure ()

/-- The branch of `SetBestChain` that switches to another branch. -/
def switchChain (E : Env) (ctx : Ctx) (p : Uint256) : Node Unit := do
  let best ← bestIndex
  let w ← get
  match postpone w.mapBlockIndex best.nChainTrust (BlockMap.height w.mapBlockIndex p + 1) p [] with
  | none => throw (.crash "null pointer")
  | some (pindexIntermediate, vpindexSecondary) => do
    let switched ← returned (reorganize E ctx pindexIntermediate)
    if !switched then do
      txnAbort
      invalidChainFound p
      throw (.error "SetBestChain() : Reorganize failed")
    else connectPostponed E ctx vpindexSecondary

/-- The branch of `SetBestChain` for the genesis block. -/
def startChain (ctx : Ctx) (hash p : Uint256) : Node Unit := do
  modifyDb fun txdb => txdb.writeHashBestChain hash
  txnCommit ctx (.error "SetBestChain() : TxnCommit failed")
  modify fun w => { w with pindexGenesisBlock := some p }

/-- The end of `SetBestChain`: the block is the new best block. -/
def newBestBlock (hash p : Uint256) : Node Unit := do
  let new ← deref (some p)
  modify fun w => { w with
    hashBestChain := hash
    pindexBest := some p
    pblockindexFBBHLast := none
    nBestHeight := new.nHeight
    nBestChainTrust := new.nChainTrust
    mempool := { w.mempool with nTransactionsUpdated := w.mempool.nTransactionsUpdated + 1 } }
  -- the block trust that is logged
  if new.nHeight ≠ 0 then do
    let _ ← deref new.pprev
  else pure ()

/-- The three ways `SetBestChain` attaches a block. -/
def attachBlock (E : Env) (ctx : Ctx) (block : CBlock) (p : Uint256) : Node Unit := do
  let w ← get
  if w.pindexGenesisBlock = none ∧ block.getHash E = E.hashGenesisBlock then
    startChain ctx (block.getHash E) p
  else if block.hashPrevBlock = w.hashBestChain then
    mapError (Stop.report (.error "SetBestChain() : SetBestChainInner failed"))
      (setBestChainInner E ctx block p)
  else switchChain E ctx p

/-- `CBlock::SetBestChain`. -/
def setBestChain (E : Env) (ctx : Ctx) (block : CBlock) (p : Uint256) : Node Unit := do
  txnBegin
  attachBlock E ctx block p
  newBestBlock (block.getHash E) p

/-! ### Accepting a block -/

/-- The hash the stake modifier of a block is computed from. -/
def stakeKernel (E : Env) (block : CBlock) : Uint256 :=
  if block.isProofOfStake then block.getProofOfStake.1.hash else block.getHash E

/-- The index entry of a new block. -/
def newIndexEntry (E : Env) (ctx : Ctx) (w : World) (block : CBlock) (nFile nBlockPos : ℕ)
    (hashProof : Uint256) (hfile : nFile < uintMax) (modifier : ℕ × Bool) : CBlockIndex :=
  let hash := block.getHash E
  let prev := w.mapBlockIndex.lookup block.hashPrevBlock
  let pprev := prev.map fun _ => block.hashPrevBlock
  { hashBlock := hash
    pprev := pprev
    pnext := none
    nFile := nFile
    nBlockPos := nBlockPos
    nChainTrust := (prev.map CBlockIndex.nChainTrust).getD 0 + getBlockTrust block.nBits
    nHeight := (prev.map fun d => d.nHeight + 1).getD 0
    nMint := 0
    nMoneySupply := 0
    nFlags := (if block.isProofOfStake then 1 else 0) ||| (if hash.getLsbD 0 then 2 else 0) |||
      (if modifier.2 then 4 else 0)
    nStakeModifier := modifier.1
    bnStakeModifierV2 := ctx.computeStakeModifierV2 pprev (stakeKernel E block)
    prevoutStake := block.getProofOfStake.1
    nStakeTime := block.getProofOfStake.2
    hashProof := hashProof
    nVersion := block.nVersion
    hashMerkleRoot := block.hashMerkleRoot
    nTime := block.nTime
    nBits := block.nBits
    nNonce := block.nNonce
    nFile_lt := hfile }

/-- The first half of `AddToBlockIndex`: the new entry goes into the index, in memory and on
disk. -/
def indexBlock (E : Env) (ctx : Ctx) (block : CBlock) (nFile nBlockPos : ℕ) (hashProof : Uint256) :
    Node Unit := do
  modify fun w => { w with txdb := w.txdb.fresh }
  let w ← get
  lift (rejectIf (w.mapBlockIndex.lookup (block.getHash E)).isSome
    (.error "AddToBlockIndex() : already exists"))
  match ctx.computeNextStakeModifier
      ((w.mapBlockIndex.lookup block.hashPrevBlock).map fun _ => block.hashPrevBlock) with
  | none => throw (.error "AddToBlockIndex() : ComputeNextStakeModifier() failed")
  | some modifier =>
    if hfile : nFile < uintMax then do
      let e := newIndexEntry E ctx w block nFile nBlockPos hashProof hfile modifier
      set { w with
        mapBlockIndex := w.mapBlockIndex.insert (block.getHash E) e
        setStakeSeen := if e.isProofOfStake then (e.prevoutStake, e.nStakeTime) :: w.setStakeSeen
          else w.setStakeSeen }
      txnBegin
      modifyDb fun txdb => txdb.writeBlockIndex E (.ofIndex e)
      txnCommit ctx .refuse
    else throw (.crash "no block file left")

/-- `CBlock::AddToBlockIndex`. -/
def addToBlockIndex (E : Env) (ctx : Ctx) (block : CBlock) (nFile nBlockPos : ℕ)
    (hashProof : Uint256) : Node Unit := do
  indexBlock E ctx block nFile nBlockPos hashProof
  let e ← deref (some (block.getHash E))
  let w ← get
  if e.nChainTrust > w.nBestChainTrust then
    mapError (Stop.report .refuse) (setBestChain E ctx block (block.getHash E))
  else pure ()

/-- `LOCKTIME_THRESHOLD`. -/
def lockTimeThreshold : ℕ := 500000000

/-- `IsFinalTx`, for a block of height `nBlockHeight`. -/
def isFinalTx (tx : CTransaction) (nBlockHeight nBlockTime : ℕ) : Bool :=
  tx.nLockTime == 0 ||
    decide (tx.nLockTime < if tx.nLockTime < lockTimeThreshold then nBlockHeight else nBlockTime) ||
    tx.vin.all CTxIn.isFinal

/-- `STAKE_TIMESTAMP_MASK`. -/
def stakeTimestampMask : ℕ := 15

/-- `CheckCoinStakeTimestamp`. -/
def checkCoinStakeTimestamp (nTimeBlock nTimeTx : ℕ) : Bool :=
  nTimeBlock == nTimeTx && (nTimeTx &&& stakeTimestampMask) == 0

/-- The checks of `AcceptBlock` that only a proof-of-stake block has to pass. -/
def checkStake (E : Env) (block : CBlock) (nHeight : ℕ) : Except Stop Unit :=
  if block.isProofOfStake then do
    rejectIf (¬ checkCoinStakeTimestamp block.nTime (block.vtx.getD 1 default).nTime)
      (.dos 50 "AcceptBlock() : coinstake timestamp violation")
    rejectIf ((nHeight : ℤ) < E.startPoSBlock) (.dos 100 "AcceptBlock() : reject proof-of-stake")
  else .ok ()

/-- The kernel check of `AcceptBlock`; the result is `hashProof`. -/
def checkKernel (E : Env) (ctx : Ctx) (block : CBlock) (nHeight : ℕ) : Except Stop Uint256 :=
  if block.isProofOfStake then
    let (ok, hashProof) := ctx.checkProofOfStake block.hashPrevBlock block
    -- the blocks of the switch-over are let through
    if !ok && (decide (nHeight > 990000) || decide (nHeight < 981145)) then
      .error (.error "AcceptBlock() : check proof-of-stake failed for block")
    else .ok hashProof
  else .ok (block.getHash E)

/-- The checks of `AcceptBlock`; `prev` is the entry of the previous block. -/
def checkAcceptBlock (E : Env) (ctx : Ctx) (prev : CBlockIndex) (block : CBlock) :
    Except Stop Uint256 := do
  let nHeight := prev.nHeight + 1
  let coinbase := block.vtx.getD 0 default
  rejectIf (block.nVersion < 7) (.dos 100 "AcceptBlock() : reject too old nVersion")
  rejectIf (block.nVersion > 7) (.dos 100 "AcceptBlock() : reject too new nVersion")
  rejectIf (ctx.velocityCheck nHeight ∧ ¬ ctx.velocity block.hashPrevBlock block)
    (.dos 100 "AcceptBlock() : Velocity rejected block, required parameters not met")
  rejectIf ((block.nTime : ℤ) > futureDrift E coinbase.nTime nHeight)
    (.dos 50 "AcceptBlock() : coinbase timestamp is too early")
  checkStake E block nHeight
  let nBits ← ctx.getNextTargetRequired block.hashPrevBlock block.isProofOfStake
  rejectIf (block.nBits ≠ nBits) (.dos 100 "AcceptBlock() : incorrect proof")
  rejectIf (block.nTime ≤ prev.nTime ∨ futureDrift E block.nTime nHeight < prev.nTime)
    (.error "AcceptBlock() : block's timestamp is too early")
  rejectIf (¬ block.vtx.all fun tx => isFinalTx tx nHeight block.nTime)
    (.dos 10 "AcceptBlock() : contains a non-final transaction")
  rejectIf (¬ ctx.checkHardened nHeight (block.getHash E))
    (.dos 100 "AcceptBlock() : rejected by hardened checkpoint lock-in")
  let hashProof ← checkKernel E ctx block nHeight
  rejectIf (¬ ctx.checkSync nHeight) (.error "AcceptBlock() : rejected by synchronized checkpoint")
  rejectIf (¬ pushInt nHeight <+: (coinbase.vin.getD 0 default).scriptSig)
    (.dos 100 "AcceptBlock() : block height mismatch in coinbase")
  rejectIf (¬ ctx.checkDiskSpace) (.error "AcceptBlock() : out of disk space")
  rejectIf ctx.writeFails (.error "AcceptBlock() : WriteToDisk failed")
  .ok hashProof

/-- `CBlock::WriteToDisk`, and `AddToBlockIndex` of the place. -/
def storeBlock (E : Env) (ctx : Ctx) (block : CBlock) (hashProof : Uint256) : Node Unit := do
  let w ← get
  let (files, nFile, nBlockPos) := w.files.writeToDisk block
  set { w with files := files }
  addToBlockIndex E ctx block nFile nBlockPos hashProof

/-- `CBlock::AcceptBlock`. -/
def acceptBlock (E : Env) (ctx : Ctx) (block : CBlock) : Node Unit := do
  let w ← get
  lift (rejectIf (¬ isProtocolV3 E block.nTime ∧ block.nVersion > 7)
    (.dos 100 "AcceptBlock() : reject unknown block version"))
  lift (rejectIf (w.mapBlockIndex.lookup (block.getHash E)).isSome
    (.error "AcceptBlock() : block already in mapBlockIndex"))
  match w.mapBlockIndex.lookup block.hashPrevBlock with
  | none => throw (.dos 10 "AcceptBlock() : prev block not found")
  | some prev => do
    let hashProof ← lift (checkAcceptBlock E ctx prev block)
    mapError (Stop.report (.error "AcceptBlock() : AddToBlockIndex failed"))
      (storeBlock E ctx block hashProof)
    let fRollingCheckpoint ← rollingCheckpoints ((prev.nHeight : ℤ) + 1) block.hashPrevBlock
    modify fun w => { w with fRollingCheckpoint := fRollingCheckpoint }

/-- The globals of a node that has never run. -/
def emptyWorld : World where
  mapBlockIndex := ∅
  setStakeSeen := []
  pindexGenesisBlock := none
  pindexBest := none
  hashBestChain := 0
  nBestHeight := -1
  nBestChainTrust := 0
  nBestInvalidTrust := 0
  pblockindexFBBHLast := none
  rollingBlock := 0
  rollingHeight := 0
  fRollingCheckpoint := false
  fRollbacktoBlock := false
  maxBlockSize := 15000000
  maxBlockSigops := 15000000 / 50
  maxTxSigops := 15000000 / 50 / 5
  blocksizes := []
  sorted := false
  mempool := ⟨∅, ∅, 0⟩
  txdb := ⟨∅, none⟩
  files := ⟨1, []⟩
  walletLog := []

/-- The start with an empty database: `LoadBlockIndex` stores the genesis block. -/
def loadGenesis (E : Env) (ctx : Ctx) (genesis : CBlock) : Node Unit :=
  storeBlock E ctx genesis E.hashGenesisBlock

end Espers
