import Espers.Chain.Links
import Espers.Core.SigOps
import Espers.Lib.Binary64

/-!
# Block templates

`createNewBlock` is `CreateNewBlock` of `miner.cpp`.  The transactions of the memory pool are put
into a queue by priority, those that wait for another one of the pool aside (`collect`), and taken
from the queue into the block as long as they fit (`assemble`).

The limits `MAX_BLOCK_SIZE` and `MAX_BLOCK_SIGOPS` are `static` variables of `main.h`.  Every file
that includes it has variables of its own, and nothing in `miner.cpp` assigns to them: the limits
here are the initial values (`minerMaxBlockSize`), not the ones that `ConnectBlock` sets.
-/

namespace Espers

open Exec

/-! ### The queue -/

/-- An entry of the queue: priority, fee per kilobyte, transaction. -/
structure TxPriority where
  dPriority : Binary64
  dFeePerKb : Binary64
  tx : CTransaction
  deriving DecidableEq

/-- `TxPriorityCompare`. -/
def TxPriority.less (byFee : Bool) (a b : TxPriority) : Bool :=
  if byFee then
    if a.dFeePerKb = b.dFeePerKb then a.dPriority.lt b.dPriority else a.dFeePerKb.lt b.dFeePerKb
  else
    if a.dPriority = b.dPriority then a.dFeePerKb.lt b.dFeePerKb else a.dPriority.lt b.dPriority

/-- How the heap lays out its entries.  The standard library leaves open which of several largest
entries comes first. -/
structure HeapLayout where
  arrange : List TxPriority → List TxPriority
  perm : ∀ v, (arrange v).Perm v

/-- `pop_heap` and `pop_back`: the largest entry, and the queue without it. -/
def HeapLayout.pop (heap : HeapLayout) (byFee : Bool) (v : List TxPriority) :
    Option (TxPriority × List TxPriority) :=
  match heap.arrange v with
  | [] => none
  | t :: ts =>
    let largest := ts.foldl (fun m t => if m.less byFee t then t else m) t
    some (largest, v.erase largest)

/-- A transaction that waits for others of the pool. -/
structure COrphan where
  ptx : CTransaction
  setDependsOn : List Uint256
  dPriority : Binary64
  dFeePerKb : Binary64

/-- `vOrphan` and `mapDependers`.  An entry of the list is known by a number that is not used again,
so that a pointer to an entry that was taken off the list is one that leads nowhere. -/
structure Orphans where
  vOrphan : List (ℕ × COrphan)
  nNext : ℕ
  mapDependers : AList fun _ : Uint256 => List ℕ

/-! ### Priorities -/

/-- `CTxIndex::GetDepthInMainChain`. -/
def getDepthInMainChain (E : Env) (w : World) (txindex : CTxIndex) : ℤ :=
  match w.files.readBlock txindex.pos.nFile txindex.pos.nBlockPos with
  | none => 0
  | some block =>
    match w.mapBlockIndex.lookup (block.getHash E) with
    | none => 0
    | some e => if w.isInMainChain (block.getHash E) then 1 + w.nBestHeight - e.nHeight else 0

/-- The state of the loop over the inputs of one transaction of the pool. -/
structure InputTally where
  porphan : Option ℕ
  dPriority : Binary64
  nTotalIn : ℤ
  orphans : Orphans

/-- The transaction waits for the one with hash `hash`. -/
def InputTally.wait (s : InputTally) (tx : CTransaction) (hash : Uint256) : InputTally :=
  let id := s.porphan.getD s.orphans.nNext
  let vOrphan := if s.porphan.isSome then s.orphans.vOrphan
    else s.orphans.vOrphan ++ [(id, ⟨tx, [], .fin 0, .fin 0⟩)]
  let depend (o : COrphan) : COrphan := { o with setDependsOn := o.setDependsOn.insert hash }
  { s with
    porphan := some id
    orphans :=
      { vOrphan := vOrphan.map fun x => if x.1 = id then (x.1, depend x.2) else x
        nNext := max s.orphans.nNext (id + 1)
        mapDependers := s.orphans.mapDependers.insert hash
          (((s.orphans.mapDependers.lookup hash).getD []) ++ [id]) } }

/-- The loop over the inputs; `none` when an input is missing. -/
def scanInputs (E : Env) (ctx : Ctx) (w : World) (tx : CTransaction) :
    List CTxIn → InputTally → Except Stop (Option InputTally × Orphans)
  | [], s => .ok (some s, s.orphans)
  | txin :: vin, s =>
    match readPrevTx w ctx w.txdb.fresh txin.prevout with
    | some (txindex, txPrev) =>
      let nValueIn := (txPrev.vout.getD txin.prevout.n default).nValue
      let nConf := getDepthInMainChain E w txindex
      scanInputs E ctx w tx vin { s with
        nTotalIn := add64 s.nTotalIn nValueIn
        dPriority := s.dPriority.add ((Binary64.ofRat nValueIn).mul (.ofRat nConf)) }
    | none =>
      match w.mempool.mapTx.lookup txin.prevout.hash with
      | none =>
        -- the entry is taken off the list, the pointers to it stay
        .ok (none, if s.porphan.isSome then { s.orphans with vOrphan := s.orphans.vOrphan.dropLast }
          else s.orphans)
      | some txPrev =>
        match txPrev.vout[txin.prevout.n]? with
        | none => .error (.crash "vout[prevout.n]")
        | some txout =>
          let s := s.wait tx txin.prevout.hash
          scanInputs E ctx w tx vin { s with nTotalIn := add64 s.nTotalIn txout.nValue }

/-- The loop of `CreateNewBlock` over the pool. -/
def collect (E : Env) (ctx : Ctx) (w : World) (nHeight : ℕ) :
    List CTransaction → List TxPriority → Orphans → Except Stop (List TxPriority × Orphans)
  | [], vecPriority, orphans => .ok (vecPriority, orphans)
  | tx :: txs, vecPriority, orphans =>
    if tx.isCoinBase || tx.isCoinStake || !isFinalTx tx nHeight ctx.getAdjustedTime.toNat then
      collect E ctx w nHeight txs vecPriority orphans
    else do
      match ← scanInputs E ctx w tx tx.vin ⟨none, .fin 0, 0, orphans⟩ with
      | (none, orphans) => collect E ctx w nHeight txs vecPriority orphans
      | (some s, orphans) =>
        let nTxSize := tx.getSerializeSize
        let dPriority := s.dPriority.div (.ofNat nTxSize)
        let nValueOut ← tx.getValueOut
        let dFeePerKb := (Binary64.ofRat (sub64 s.nTotalIn nValueOut)).div
          ((Binary64.ofNat nTxSize).div (.ofNat 1000))
        match s.porphan with
        | none => collect E ctx w nHeight txs (vecPriority ++ [⟨dPriority, dFeePerKb, tx⟩]) orphans
        | some id =>
          collect E ctx w nHeight txs vecPriority { orphans with
            vOrphan := orphans.vOrphan.map fun x =>
              if x.1 = id then
                (x.1, { x.2 with dPriority := dPriority, dFeePerKb := dFeePerKb }) else x }

/-- `MAX_BLOCK_SIZE` of `miner.cpp`. -/
def minerMaxBlockSize : ℕ := 15000000

/-- `MAX_BLOCK_SIGOPS` of `miner.cpp`. -/
def minerMaxBlockSigops : ℕ := minerMaxBlockSize / 50

/-- The command line arguments that `CreateNewBlock` reads, with their defaults. -/
structure MinerArgs where
  blockmaxsize : ℤ := (maxBlockSizeGen / 2 : ℕ)
  blockprioritysize : ℤ := 27000
  blockminsize : ℤ := 0
  mintxfee : ℤ := minTxFee

namespace MinerArgs

/-- The conversion of an argument to `unsigned int`. -/
def toUnsigned (n : ℤ) : ℕ := (n % 2 ^ 32).toNat

/-- The largest block that is created. -/
def nBlockMaxSize (args : MinerArgs) : ℕ :=
  max 1000 (min (minerMaxBlockSize - 1000) (toUnsigned args.blockmaxsize))

/-- How much of the block is for transactions of high priority. -/
def nBlockPrioritySize (args : MinerArgs) : ℕ :=
    min args.nBlockMaxSize (toUnsigned args.blockprioritysize)

/-- Up to this size the block is filled with free transactions. -/
def nBlockMinSize (args : MinerArgs) : ℕ := min args.nBlockMaxSize (toUnsigned args.blockminsize)

end MinerArgs

/-! ### Filling the block -/

/-- The state of the loop that fills the block; `vtx` is what follows the coinbase. -/
structure Assembly where
  vtx : List CTransaction
  nBlockSize : ℕ
  nBlockTx : ℕ
  nBlockSigOps : ℕ
  nFees : ℤ
  fSortedByFee : Bool
  mapTestPool : MapTxIndex
  vecPriority : List TxPriority
  orphans : Orphans

/-- A function that returned `false`, or its result. -/
def tolerate {α : Type} : Except Stop α → Except Stop (Option α)
  | .ok a => .ok (some a)
  | .error e => if e.returnsFalse then .ok none else .error e

/-- The checks of the loop that need no inputs; `nTimeCoinBase` is the time of the coinbase. -/
def Assembly.admits (E : Env) (ctx : Ctx) (args : MinerArgs) (fProofOfStake : Bool)
    (nTimeCoinBase : ℕ) (a : Assembly) (t : TxPriority) : Bool :=
  decide (a.nBlockSize + t.tx.getSerializeSize < args.nBlockMaxSize) &&
  decide (a.nBlockSigOps + E.getLegacySigOpCount t.tx < minerMaxBlockSigops) &&
  !(decide ((t.tx.nTime : ℤ) > ctx.getAdjustedTime) ||
    (fProofOfStake && decide (t.tx.nTime > nTimeCoinBase))) &&
  !(a.fSortedByFee && t.dFeePerKb.lt (.ofRat args.mintxfee) &&
    decide (a.nBlockSize + t.tx.getSerializeSize ≥ args.nBlockMinSize))

/-- The queue is ordered by fee once the block is past the priority size or the priorities are
low. -/
def Assembly.reorder (args : MinerArgs) (a : Assembly) (t : TxPriority) : Assembly :=
  { a with fSortedByFee := a.fSortedByFee ||
      decide (a.nBlockSize + t.tx.getSerializeSize ≥ args.nBlockPrioritySize) ||
      t.dPriority.lt (.ofRat (coin * 144 / 250 : ℤ)) }

/-- The transactions that waited for `hash` go into the queue. -/
def Assembly.release (hash : Uint256) : List ℕ → Assembly → Except Stop Assembly
  | [], a => .ok a
  | id :: ids, a =>
    match a.orphans.vOrphan.find? fun x => x.1 = id with
    | none => .error (.crash "dangling COrphan")
    | some (_, porphan) =>
      if porphan.setDependsOn = [] then Assembly.release hash ids a
      else
        let setDependsOn := porphan.setDependsOn.erase hash
        Assembly.release hash ids { a with
          orphans := { a.orphans with vOrphan := a.orphans.vOrphan.map fun x =>
            if x.1 = id then (x.1, { x.2 with setDependsOn := setDependsOn }) else x }
          vecPriority := a.vecPriority ++ if setDependsOn = [] then
            [⟨porphan.dPriority, porphan.dFeePerKb, porphan.ptx⟩] else [] }

/-- The transaction is added to the block. -/
def Assembly.add (E : Env) (a : Assembly) (tx : CTransaction) (nTxSigOps : ℕ) (nTxFees : ℤ)
    (mapTestPool : MapTxIndex) : Assembly :=
  { a with
    vtx := a.vtx ++ [tx]
    nBlockSize := a.nBlockSize + tx.getSerializeSize
    nBlockTx := a.nBlockTx + 1
    nBlockSigOps := a.nBlockSigOps + nTxSigOps
    nFees := add64 a.nFees nTxFees
    mapTestPool := mapTestPool.insert (E.txHash tx) (.ofOutputs .inMemory tx.vout.length) }

/-- What is done with a transaction whose inputs were found. -/
def Assembly.connect (E : Env) (w : World) (pindexPrev : Uint256) (a : Assembly) (tx : CTransaction)
    (mapInputs : MapPrevTx) : Except Stop Assembly := do
  let nValueIn ← getValueMapIn mapInputs tx
  let nValueOut ← tx.getValueOut
  let nTxFees := sub64 nValueIn nValueOut
  let nTxSigOps := E.getLegacySigOpCount tx + E.getP2SHSigOpCount tx mapInputs
  if nTxFees < getMinFee a.nBlockSize 0 then .ok a
  else if a.nBlockSigOps + nTxSigOps ≥ minerMaxBlockSigops then .ok a
  else do
    match ← tolerate
      (connectInputs E w tx mapInputs a.mapTestPool .inMemory (some pindexPrev) false true
        mandatoryScriptVerifyFlags) with
    | none => .ok a
    | some mapTestPool =>
      Assembly.release (E.txHash tx) ((a.orphans.mapDependers.lookup (E.txHash tx)).getD [])
        (a.add E tx nTxSigOps nTxFees mapTestPool)

/-- One pass of the loop that fills the block, for an entry taken from the queue. -/
def Assembly.consider (E : Env) (ctx : Ctx) (w : World) (args : MinerArgs) (fProofOfStake : Bool)
    (pindexPrev : Uint256) (nTimeCoinBase : ℕ) (a : Assembly) (t : TxPriority) :
    Except Stop Assembly :=
  if !a.admits E ctx args fProofOfStake nTimeCoinBase t then .ok a
  else do
    let a := a.reorder args t
    match ← tolerate (fetchInputs w ctx w.txdb.fresh a.mapTestPool true false t.tx) with
    | none => .ok a
    | some mapInputs => a.connect E w pindexPrev t.tx mapInputs

/-- The loop that fills the block.  Every pass takes an entry from the queue, and a transaction that
waits goes into it once. -/
def assemble (E : Env) (ctx : Ctx) (w : World) (args : MinerArgs) (heap : HeapLayout)
    (fProofOfStake : Bool) (pindexPrev : Uint256) (nTimeCoinBase : ℕ) :
    ℕ → Assembly → Except Stop Assembly
  | 0, a => if a.vecPriority = [] then .ok a else .error (.crash "the queue does not get empty")
  | fuel + 1, a =>
    match heap.pop a.fSortedByFee a.vecPriority with
    | none => .ok a
    | some (t, vecPriority) => do
      let a ← { a with vecPriority := vecPriority }.consider E ctx w args fProofOfStake pindexPrev
        nTimeCoinBase t
      assemble E ctx w args heap fProofOfStake pindexPrev nTimeCoinBase fuel a

/-! ### The template -/

/-- `OP_DUP OP_HASH160 <id> OP_EQUALVERIFY OP_CHECKSIG`. -/
def payToKey (id : Vector UInt8 20) : CScript := [0x76, 0xa9, 0x14] ++ id.toList ++ [0x88, 0xac]

/-- `COINBASE_FLAGS`, to which nothing is assigned. -/
def coinbaseFlags : CScript := []

/-- The coinbase of a template; a proof-of-work template pays to a key of the wallet. -/
def newCoinBase (ctx : Ctx) (nHeight : ℕ) : Option (Vector UInt8 20) → CTransaction
  | some id =>
    ⟨1, ctx.getAdjustedTime.toNat, [⟨.null, [], uintMax⟩], [⟨-1, payToKey id⟩], 0⟩
  | none =>
    ⟨1, ctx.getAdjustedTime.toNat, [⟨.null, pushInt nHeight ++ coinbaseFlags, uintMax⟩], [⟨0, []⟩],
      0⟩

/-- The template, what it pays in fees, and `nLastBlockTx` and `nLastBlockSize`. -/
structure Template where
  pblock : CBlock
  nFees : ℤ
  nLastBlockTx : ℕ
  nLastBlockSize : ℕ

/-- The latest time of a transaction. -/
def getMaxTransactionTime (vtx : List CTransaction) : ℕ := (vtx.map CTransaction.nTime).foldl max 0

/-- The transactions of the pool in the order of their hashes. -/
def poolTxs (w : World) : List CTransaction :=
  (w.mempool.mapTx.entries.mergeSort fun a b => decide (a.1.toNat ≤ b.1.toNat)).map fun x => x.2

/-- The queue before the first pass. -/
def Assembly.init (args : MinerArgs) (vecPriority : List TxPriority) (orphans : Orphans) :
    Assembly where
  vtx := []
  nBlockSize := 1000
  nBlockTx := 0
  nBlockSigOps := 100
  nFees := 0
  fSortedByFee := decide (args.nBlockPrioritySize ≤ 0)
  mapTestPool := ∅
  vecPriority := vecPriority
  orphans := orphans

/-- The transaction with every output set to `n`. -/
def CTransaction.paying (tx : CTransaction) (n : ℤ) : CTransaction :=
  { tx with vout := tx.vout.map fun txout => { txout with nValue := n } }

/-- The header and the reward are filled in. -/
def fillTemplate (ctx : Ctx) (fProofOfStake : Bool) (p : Uint256) (e : CBlockIndex)
    (nHeight nBits : ℕ) (cb : CTransaction) (a : Assembly) : Template :=
  let cb := if fProofOfStake then cb
    else cb.paying (getProofOfWorkReward e.nMoneySupply nHeight a.nFees)
  let nTime := max (e.nTime + 1) (getMaxTransactionTime (cb :: a.vtx))
  { pblock :=
      { nVersion := 7
        hashPrevBlock := p
        hashMerkleRoot := 0
        nTime := if fProofOfStake then nTime else max nTime ctx.getAdjustedTime.toNat
        nBits := nBits
        nNonce := 0
        vtx := cb :: a.vtx
        vchBlockSig := [] }
    nFees := a.nFees
    nLastBlockTx := a.nBlockTx
    nLastBlockSize := a.nBlockSize }

/-- `CreateNewBlock`; `key` is the key that the wallet has reserved. -/
def createNewBlock (E : Env) (ctx : Ctx) (args : MinerArgs) (heap : HeapLayout) (w : World)
    (fProofOfStake : Bool) (key : Option (Vector UInt8 20)) : Except Stop Template :=
  match w.pindexBest with
  | none => .error (.crash "null pointer")
  | some p =>
    match w.mapBlockIndex.lookup p with
    | none => .error (.crash "null pointer")
    | some e => do
      let nHeight := e.nHeight + 1
      rejectIf (nHeight ≥ 2 ^ 31) (.crash "pindexPrev->nHeight + 1 overflows")
      rejectIf (!fProofOfStake ∧ key = none) .refuse
      let cb := newCoinBase ctx nHeight (if fProofOfStake then none else key)
      let nBits ← ctx.getNextTargetRequired p fProofOfStake
      let (vecPriority, orphans) ← collect E ctx w nHeight (poolTxs w) [] ⟨[], 0, ∅⟩
      let a ← assemble E ctx w args heap fProofOfStake p cb.nTime
        (vecPriority.length + orphans.vOrphan.length) (.init args vecPriority orphans)
      .ok (fillTemplate ctx fProofOfStake p e nHeight nBits cb a)

end Espers
