import Espers.Core.Block
import Espers.Lib.Store

/-!
# The state of a node

`World` holds the globals of `main.cpp` that the chain logic reads or writes: the block index in
memory, the best-chain pointers, the database with the batch of the handle in use, the block files,
the memory pool, and the log of the notifications sent to the wallets.  `Ctx` holds what varies from
one call to the next and is not decided by this state: the clock, the relaying peer, and which disk
operations fail.

A function of the source that works on the globals is a `Node α`.
-/

namespace Espers

open Exec

/-! ### The database -/

/-- The keys of the database. -/
inductive DbKey where
  | tx (hash : Uint256)
  | blockindex (hash : Uint256)
  | hashBestChain
  | bnBestInvalidTrust
  deriving DecidableEq

/-- The type of the value under a key. -/
def DbKey.Val : DbKey → Type
  | .tx _ => CTxIndex
  | .blockindex _ => CDiskBlockIndex
  | .hashBestChain => Uint256
  | .bnBestInvalidTrust => Uint256

/-- The database, seen through one handle. -/
abbrev CTxDB := Store.Db DbKey.Val

namespace CTxDB

/-- `CTxDB::ReadTxIndex`. -/
def readTxIndex (txdb : CTxDB) (hash : Uint256) : Option CTxIndex := txdb.read (.tx hash)

/-- `CTxDB::UpdateTxIndex`. -/
def updateTxIndex (txdb : CTxDB) (hash : Uint256) (txindex : CTxIndex) : CTxDB :=
  txdb.write (.tx hash) txindex

/-- `CTxDB::EraseTxIndex`. -/
def eraseTxIndex (txdb : CTxDB) (hash : Uint256) : CTxDB := txdb.erase (.tx hash)

/-- `CTxDB::WriteBlockIndex`. -/
def writeBlockIndex (E : Env) (txdb : CTxDB) (d : CDiskBlockIndex) : CTxDB :=
  txdb.write (.blockindex (d.getBlockHash E)) d

/-- `CTxDB::WriteHashBestChain`. -/
def writeHashBestChain (txdb : CTxDB) (hash : Uint256) : CTxDB := txdb.write .hashBestChain hash

/-- `CTxDB::WriteBestInvalidTrust`. -/
def writeBestInvalidTrust (txdb : CTxDB) (trust : Uint256) : CTxDB :=
  txdb.write .bnBestInvalidTrust trust

/-- `CTxDB::ContainsTx`, through a handle without a batch. -/
def containsTx (txdb : CTxDB) (hash : Uint256) : Bool := (txdb.fresh.read (.tx hash)).isSome

end CTxDB

/-- A block written to a file, with the offset of its first byte. -/
structure StoredBlock where
  nFile : ℕ
  nBlockPos : ℕ
  block : CBlock

/-- The block files: what has been appended to them, latest block first. -/
structure BlockFiles where
  nCurrentBlockFile : ℕ
  blocks : List StoredBlock

/-- The offset of the first transaction of a block stored at `nBlockPos`. -/
def firstTxPos (nBlockPos : ℕ) (block : CBlock) : ℕ :=
  nBlockPos + headerSize + getSizeOfCompactSize block.vtx.length

/-- The transaction at offset `nTxPos`, when the first of `vtx` lies at `pos`. -/
def txAt (nTxPos : ℕ) : ℕ → List CTransaction → Option CTransaction
  | _, [] => none
  | pos, tx :: vtx => if pos = nTxPos then some tx else txAt nTxPos (pos + tx.getSerializeSize) vtx

namespace BlockFiles

/-- The end of a file. -/
def ftell (fs : BlockFiles) (nFile : ℕ) : ℕ :=
  fs.blocks.foldr (fun sb n =>
    if sb.nFile = nFile then max n (sb.nBlockPos + sb.block.getSerializeSize) else n) 0

/-- `AppendBlockFile`: the first file from the current one on that has room left. -/
def appendBlockFile (fs : BlockFiles) : ℕ → ℕ → ℕ
  | 0, nFile => nFile
  | fuel + 1, nFile =>
    if fs.ftell nFile < 0x7F000000 - 0x02000000 then nFile else fs.appendBlockFile fuel (nFile + 1)

/-- `CBlock::WriteToDisk`: the block follows the message start and its size, four bytes each. -/
def writeToDisk (fs : BlockFiles) (block : CBlock) : BlockFiles × ℕ × ℕ :=
  let nFile := fs.appendBlockFile (fs.blocks.length + 1) fs.nCurrentBlockFile
  let nBlockPos := fs.ftell nFile + 8
  (⟨nFile, ⟨nFile, nBlockPos, block⟩ :: fs.blocks⟩, nFile, nBlockPos)

/-- The block at an offset. -/
def readBlock (fs : BlockFiles) (nFile nBlockPos : ℕ) : Option CBlock :=
  (fs.blocks.find? fun sb => sb.nFile = nFile ∧ sb.nBlockPos = nBlockPos).map StoredBlock.block

/-- The transaction at an offset. -/
def readTx (fs : BlockFiles) (nFile nTxPos : ℕ) : Option CTransaction :=
  fs.blocks.findSome? fun sb =>
    if sb.nFile = nFile then txAt nTxPos (firstTxPos sb.nBlockPos sb.block) sb.block.vtx else none

end BlockFiles

/-! ### Globals -/

/-- The memory pool; a `CInPoint` is the hash of the spending transaction and an index into its
`vin`. -/
structure CTxMemPool where
  mapTx : AList fun _ : Uint256 => CTransaction
  mapNextTx : AList fun _ : COutPoint => Uint256 × ℕ
  nTransactionsUpdated : ℕ

/-- A `SyncWithWallets` notification. -/
structure SyncEvent where
  tx : CTransaction
  pblock : Option CBlock
  fConnect : Bool
  deriving DecidableEq

/-- The globals. -/
structure World where
  mapBlockIndex : BlockMap
  setStakeSeen : List (COutPoint × ℕ)
  pindexGenesisBlock : Option Uint256
  pindexBest : Option Uint256
  hashBestChain : Uint256
  nBestHeight : ℤ
  nBestChainTrust : Uint256
  nBestInvalidTrust : Uint256
  pblockindexFBBHLast : Option Uint256
  rollingBlock : Uint256
  rollingHeight : ℤ
  fRollingCheckpoint : Bool
  fRollbacktoBlock : Bool
  maxBlockSize : ℕ
  maxBlockSigops : ℕ
  maxTxSigops : ℕ
  blocksizes : List ℕ
  sorted : Bool
  mempool : CTxMemPool
  txdb : CTxDB
  files : BlockFiles
  walletLog : List SyncEvent
  /-- The four bytes in front of an offset of a file `blocks/blk%05u.dat`, zero where there are
  none; the node writes its blocks to other files. -/
  blockDir : ℕ → ℕ → BitVec 32 := fun _ _ => 0

/-- What a call depends on beside the globals. -/
structure Ctx where
  /-- `GetTime()`. -/
  getTime : ℤ
  /-- `GetAdjustedTime()`. -/
  getAdjustedTime : ℤ
  /-- `fDemiPeerRelay(GetRelayPeerAddr)`: the relaying peer is a registered Demi-node. -/
  fDemiPeerRelay : Bool
  fDemiNodes : Bool
  fDemiSelf : Bool
  /-- `PEER_REORG_TYPE`. -/
  peerReorgType : ℤ
  /-- The height asked for by `-backtoblock`. -/
  nNewHeight : ℤ
  /-- `Velocity_check(nHeight)`; beyond height 0 it compares with memory past its table. -/
  velocityCheck : ℕ → Bool
  /-- `Velocity(prevBlock, block, true)`. -/
  velocity : Uint256 → CBlock → Bool
  /-- The read of a block from its file fails. -/
  blockReadFails : Uint256 → Bool
  /-- The read of a transaction from its file fails. -/
  txReadFails : CDiskTxPos → Bool
  /-- LevelDB cannot write a batch. -/
  commitFails : CTxDB → Bool
  /-- The rate limiter for free transactions refuses. -/
  freeLimiter : CTransaction → Bool
  /-- `GetNextTargetRequired(pindexPrev, fProofOfStake)`, which can throw. -/
  getNextTargetRequired : Uint256 → Bool → Except Stop ℕ
  /-- `Checkpoints::CheckHardened(nHeight, hash)`. -/
  checkHardened : ℕ → Uint256 → Bool
  /-- `Checkpoints::CheckSync(nHeight)`. -/
  checkSync : ℕ → Bool
  /-- `CheckProofOfStake(pindexPrev, vtx[1], nBits, …)`: the answer and `hashProof`. -/
  checkProofOfStake : Uint256 → CBlock → Bool × Uint256
  /-- `ComputeNextStakeModifier(pindexPrev)`: the modifier and whether it was generated. -/
  computeNextStakeModifier : Option Uint256 → Option (ℕ × Bool)
  /-- `ComputeStakeModifierV2(pindexPrev, kernel)`. -/
  computeStakeModifierV2 : Option Uint256 → Uint256 → Uint256
  /-- `CheckDiskSpace`. -/
  checkDiskSpace : Bool
  /-- A block cannot be appended to its file. -/
  writeFails : Bool

/-- A function of the source that reads and writes the globals. -/
abbrev Node := EStateM Stop World

/-- `*p`. -/
def deref (p : Option Uint256) : Node CBlockIndex := do
  let w ← get
  match p.bind fun hash => w.mapBlockIndex.lookup hash with
  | some e => pure e
  | none => throw (.crash "null pointer")

/-- The entry of the best block. -/
def bestIndex : Node CBlockIndex := do
  let w ← get
  deref w.pindexBest

/-- Change the entry `*p`. -/
def World.updateIndex (w : World) (p : Uint256) (f : CBlockIndex → CBlockIndex) : World :=
  match w.mapBlockIndex.lookup p with
  | some e => { w with mapBlockIndex := w.mapBlockIndex.insert p (f e) }
  | none => w

/-- The transaction a record points to. -/
def BlockFiles.diskTx (fs : BlockFiles) (pos : CDiskTxPos) : Option CTransaction :=
  fs.readTx pos.nFile pos.nTxPos

/-- `CTransaction::ReadFromDisk(pos)`. -/
def World.readTxFromDisk (w : World) (ctx : Ctx) (pos : CDiskTxPos) : Option CTransaction :=
  if ctx.txReadFails pos then none else w.files.diskTx pos

theorem World.diskTx_of_read {w : World} {ctx : Ctx} {pos : CDiskTxPos} {tx : CTransaction}
    (h : w.readTxFromDisk ctx pos = some tx) : w.files.diskTx pos = some tx := by
  unfold World.readTxFromDisk at h
  split_ifs at h
  exact h

/-- `CBlock::ReadFromDisk(pindex)`: the block is read, its work checked again, and its hash compared
with the index. -/
def readBlockFromDisk (E : Env) (ctx : Ctx) (w : World) (e : CBlockIndex) : Option CBlock :=
  if ctx.blockReadFails e.hashBlock then none
  else
    match w.files.readBlock e.nFile e.nBlockPos with
    | none => none
    | some block =>
      if block.isProofOfWork && !(checkProofOfWork E (block.getHash E) block.nBits).isOk then none
      else if block.getHash E ≠ e.hashBlock then none
      else some block

/-- `SyncWithWallets` for every transaction of a block. -/
def syncBlock (block : CBlock) (fConnect : Bool) : List SyncEvent :=
  block.vtx.map fun tx => ⟨tx, some block, fConnect⟩

/-- `CTxDB::TxnBegin`. -/
def txnBegin : Node Unit := do
  let w ← get
  if w.txdb.activeBatch.isSome then throw (.crash "assert(!activeBatch)")
  else set { w with txdb := w.txdb.begin }

/-- `CTxDB::TxnCommit`; the batch is gone whether or not it could be written.  The caller returns
with `fail` when it could not. -/
def txnCommit (ctx : Ctx) (fail : Stop) : Node Unit := do
  let w ← get
  if w.txdb.activeBatch.isNone then throw (.crash "assert(activeBatch)")
  else if ctx.commitFails w.txdb then do
    set { w with txdb := w.txdb.abort }
    throw fail
  else set { w with txdb := w.txdb.commit }

/-- `CTxDB::TxnAbort`. -/
def txnAbort : Node Unit := modify fun w => { w with txdb := w.txdb.abort }

theorem txnAbort_apply (w : World) : txnAbort w = .ok () { w with txdb := w.txdb.abort } := rfl

/-- Change the database through the handle in use. -/
def modifyDb (f : CTxDB → CTxDB) : Node Unit := modify fun w => { w with txdb := f w.txdb }

theorem modifyDb_apply (f : CTxDB → CTxDB) (w : World) :
    modifyDb f w = .ok () { w with txdb := f w.txdb } := rfl

/-- The function returned `true`, or it returned `false` and the caller goes on. -/
def returned (x : Node Unit) : Node Bool := attempt Stop.returnsFalse x

end Espers
