import Espers.Chain.World

/-!
# Fetching, connecting and disconnecting the inputs of a transaction

`fetchInputs`, `connectInputs`, `disconnectInputs` and `getValueMapIn` are the methods of
`CTransaction` of the same names.
-/

namespace Espers

open Exec

/-- `nCoinbaseMaturity`. -/
def nCoinbaseMaturity : ℕ := 60

/-- `STANDARD_NOT_MANDATORY_VERIFY_FLAGS`, the one flag that is standard but not mandatory. -/
def standardNotMandatoryVerifyFlags : ℕ := 4

/-! ### Fetching -/

/-- One pass of the loop of `FetchInputs`: the index record and the transaction with hash `hash`. -/
def fetchInput (w : World) (ctx : Ctx) (txdb : CTxDB) (mapTxPool : MapTxIndex)
    (fBlock fInFlight : Bool) (hash : Uint256) : Except Stop (CTxIndex × CTransaction) := do
  let fHasMap := mapTxPool.lookup hash
  let found := if fBlock && fHasMap.isSome then fHasMap else txdb.readTxIndex hash
  rejectIf (found = none ∧ fBlock)
    (.error "FetchInputs() : fBlock() - prev tx index entry not found")
  let pos := (found.map CTxIndex.pos).getD .null
  let needPool := found.isNone || pos == .inMemory
  let inPool := if needPool then w.mempool.mapTx.lookup hash else none
  rejectIf (needPool ∧ inPool = none ∧ !fInFlight)
    (.error "FetchInputs() : mempool() - prev tx not found")
  let onDisk := if found.isSome then w.readTxFromDisk ctx pos else none
  rejectIf (found.isSome ∧ onDisk = none ∧ !fInFlight)
    (.error "FetchInputs() : ReadFromDisk() prev tx not found")
  rejectIf (found.isSome ∧ onDisk = none ∧ fHasMap = none)
    (.error "FetchInputs() : mapTxPool() - prev tx not found")
  let txPrev := onDisk.getD (inPool.getD ⟨1, ctx.getAdjustedTime.toNat, [], [], 0⟩)
  .ok (found.getD (.ofOutputs .null txPrev.vout.length), txPrev)

/-- The loop of `FetchInputs` over the inputs; a parent already fetched is not fetched again. -/
def fetchLoop (w : World) (ctx : Ctx) (txdb : CTxDB) (mapTxPool : MapTxIndex)
    (fBlock fInFlight : Bool) : List CTxIn → MapPrevTx → Except Stop MapPrevTx
  | [], inputsRet => .ok inputsRet
  | txin :: vin, inputsRet =>
    if (inputsRet.lookup txin.prevout.hash).isSome then
      fetchLoop w ctx txdb mapTxPool fBlock fInFlight vin inputsRet
    else do
      let r ← fetchInput w ctx txdb mapTxPool fBlock fInFlight txin.prevout.hash
      fetchLoop w ctx txdb mapTxPool fBlock fInFlight vin (inputsRet.insert txin.prevout.hash r)

/-- The loop of `FetchInputs` that checks the output indexes; its failure sets `fInvalid`. -/
def checkPrevouts (inputsRet : MapPrevTx) : List CTxIn → Except Stop Unit
  | [] => .ok ()
  | txin :: vin =>
    match inputsRet.lookup txin.prevout.hash with
    | none => .error (.crash "assert(inputsRet.count(prevout.hash) != 0)")
    | some (txindex, txPrev) => do
      rejectIf (txin.prevout.n ≥ txPrev.vout.length ∨ txin.prevout.n ≥ txindex.vSpent.length)
        (.dos 100 "FetchInputs() : prevout.n out of range")
      checkPrevouts inputsRet vin

/-- `CTransaction::FetchInputs`. -/
def fetchInputs (w : World) (ctx : Ctx) (txdb : CTxDB) (mapTxPool : MapTxIndex)
    (fBlock fInFlight : Bool) (tx : CTransaction) : Except Stop MapPrevTx :=
  if tx.isCoinBase then .ok ∅
  else do
    let inputsRet ← fetchLoop w ctx txdb mapTxPool fBlock fInFlight tx.vin ∅
    if fInFlight then .ok inputsRet
    else do
      checkPrevouts inputsRet tx.vin
      .ok inputsRet

/-- `CTransaction::GetOutputFor`. -/
def getOutputFor (input : CTxIn) (inputs : MapPrevTx) : Except Stop CTxOut :=
  match inputs.lookup input.prevout.hash with
  | none => .error (.exception "CTransaction::GetOutputFor() : prevout.hash not found")
  | some (_, txPrev) =>
    match txPrev.vout[input.prevout.n]? with
    | none => .error (.exception "CTransaction::GetOutputFor() : prevout.n out of range")
    | some txout => .ok txout

/-- The loop of `GetValueMapIn`. -/
def sumInputs (inputs : MapPrevTx) (nResult : ℤ) : List CTxIn → Except Stop ℤ
  | [] => .ok nResult
  | txin :: vin => do
    let txout ← getOutputFor txin inputs
    sumInputs inputs (add64 nResult txout.nValue) vin

/-- `CTransaction::GetValueMapIn`. -/
def getValueMapIn (inputs : MapPrevTx) (tx : CTransaction) : Except Stop ℤ :=
  if tx.isCoinBase then .ok 0 else sumInputs inputs 0 tx.vin

/-! ### Connecting -/

/-- `IsConfirmedInNPrevBlocks`: the depth at which a block of the branch of `pindexFrom` lies where
the record points, if that is less than `nMaxDepth`. -/
def isConfirmedInNPrevBlocks (m : BlockMap) (pos : CDiskTxPos) (fromHeight nMaxDepth : ℕ) :
    ℕ → Option Uint256 → Option ℕ
  | 0, _ => none
  | fuel + 1, pindex =>
    match pindex.bind m.lookup with
    | none => none
    | some e =>
      if (fromHeight : ℤ) - e.nHeight < nMaxDepth then
        if e.nBlockPos = pos.nBlockPos ∧ e.nFile = pos.nFile then some (fromHeight - e.nHeight)
        else isConfirmedInNPrevBlocks m pos fromHeight nMaxDepth fuel e.pprev
      else none

/-- The output is a coinbase or coinstake output in one of the last `nCoinbaseMaturity` blocks. -/
def immature (m : BlockMap) (pindexBlock : Option Uint256) (txindex : CTxIndex)
    (txPrev : CTransaction) : Bool :=
  (txPrev.isCoinBase || txPrev.isCoinStake) &&
    match pindexBlock.bind m.lookup with
    | none => false
    | some e => (isConfirmedInNPrevBlocks m txindex.pos e.nHeight nCoinbaseMaturity
        (nCoinbaseMaturity + 1) pindexBlock).isSome

/-- The first loop of `ConnectInputs`: the inexpensive checks, and the value coming in. -/
def checkInputs (E : Env) (m : BlockMap) (pindexBlock : Option Uint256) (tx : CTransaction)
    (inputs : MapPrevTx) (nValueIn : ℤ) : List CTxIn → Except Stop ℤ
  | [] => .ok nValueIn
  | txin :: vin =>
    match inputs.lookup txin.prevout.hash with
    | none => .error (.crash "assert(inputs.count(prevout.hash) > 0)")
    | some (txindex, txPrev) =>
      match txPrev.vout[txin.prevout.n]? with
      | none => .error (.dos 100 "ConnectInputs() : prevout.n out of range")
      | some txout => do
        rejectIf (txin.prevout.n ≥ txindex.vSpent.length)
          (.dos 100 "ConnectInputs() : prevout.n out of range")
        rejectIf (immature m pindexBlock txindex txPrev)
          (.error "ConnectInputs() : tried to spend coinbase or coinstake before maturity")
        rejectIf (txPrev.nTime > tx.nTime)
          (.dos 100 "ConnectInputs() : transaction timestamp earlier than input transaction")
        rejectIf (isProtocolV3 E tx.nTime ∧ txout.isEmpty)
          (.dos 1 "ConnectInputs() : special marker is not spendable")
        let nValueIn := add64 nValueIn txout.nValue
        rejectIf (!moneyRange txout.nValue ∨ !moneyRange nValueIn)
          (.dos 100 "ConnectInputs() : txin values out of range")
        checkInputs E m pindexBlock tx inputs nValueIn vin

/-- The signature check of one input, skipped while a block below the last checkpoint is being
connected. -/
def checkSignature (E : Env) (nBestHeight : ℤ) (txPrev tx : CTransaction) (i : ℕ) (fBlock : Bool)
    (flags : ℕ) : Except Stop Unit :=
  if fBlock && decide (nBestHeight < E.getTotalBlocksEstimate) then .ok ()
  else if E.verifySignature txPrev tx i flags then .ok ()
  else if flags &&& standardNotMandatoryVerifyFlags ≠ 0 ∧
      E.verifySignature txPrev tx i (flags - standardNotMandatoryVerifyFlags) then
    .error (.error "ConnectInputs() : non-mandatory VerifySignature failed")
  else .error (.dos 100 "ConnectInputs() : VerifySignature failed")

/-- The second loop of `ConnectInputs`: conflicts, signatures, and marking the outpoints as
spent. -/
def spendInputs (E : Env) (nBestHeight : ℤ) (tx : CTransaction) (posThisTx : CDiskTxPos)
    (fBlock fMiner : Bool) (flags : ℕ) :
    ℕ → List CTxIn → MapPrevTx → MapTxIndex → Except Stop MapTxIndex
  | _, [], _, mapTestPool => .ok mapTestPool
  | i, txin :: vin, inputs, mapTestPool =>
    match inputs.lookup txin.prevout.hash with
    | none => .error (.crash "assert(inputs.count(prevout.hash) > 0)")
    | some (txindex, txPrev) => do
      rejectIf (¬ (txindex.vSpent.getD txin.prevout.n .null).isNull)
        (if fMiner then .refuse else .error "ConnectInputs() : prev tx already used")
      checkSignature E nBestHeight txPrev tx i fBlock flags
      let txindex : CTxIndex :=
        { txindex with vSpent := txindex.vSpent.set txin.prevout.n posThisTx }
      spendInputs E nBestHeight tx posThisTx fBlock fMiner flags (i + 1) vin
        (inputs.insert txin.prevout.hash (txindex, txPrev))
        (if fBlock || fMiner then mapTestPool.insert txin.prevout.hash txindex else mapTestPool)

/-- The fee checks at the end of `ConnectInputs`. -/
def checkFees (tx : CTransaction) (nValueIn : ℤ) : Except Stop Unit :=
  if tx.isCoinStake then .ok ()
  else do
    let nValueOut ← tx.getValueOut
    rejectIf (nValueIn < nValueOut) (.dos 100 "ConnectInputs() : value in < value out")
    let nTxFee := sub64 nValueIn nValueOut
    rejectIf (nTxFee < 0) (.dos 100 "ConnectInputs() : nTxFee < 0")
    rejectIf (!moneyRange nTxFee) (.dos 100 "ConnectInputs() : nFees out of range")

/-- `CTransaction::ConnectInputs`. -/
def connectInputs (E : Env) (w : World) (tx : CTransaction) (inputs : MapPrevTx)
    (mapTestPool : MapTxIndex) (posThisTx : CDiskTxPos) (pindexBlock : Option Uint256)
    (fBlock fMiner : Bool) (flags : ℕ) : Except Stop MapTxIndex :=
  if tx.isCoinBase then .ok mapTestPool
  else do
    let nValueIn ← checkInputs E w.mapBlockIndex pindexBlock tx inputs 0 tx.vin
    let mapTestPool ← spendInputs E w.nBestHeight tx posThisTx fBlock fMiner flags 0 tx.vin inputs
      mapTestPool
    checkFees tx nValueIn
    .ok mapTestPool

/-- The loop of `DisconnectInputs`: relinquish the spent pointers of previous transactions. -/
def relinquish : List CTxIn → Node Unit
  | [] => pure ()
  | txin :: vin => do
    let w ← get
    match w.txdb.readTxIndex txin.prevout.hash with
    | none => throw (.error "DisconnectInputs() : ReadTxIndex failed")
    | some txindex =>
      if txin.prevout.n ≥ txindex.vSpent.length then
        throw (.error "DisconnectInputs() : prevout.n out of range")
      else do
        modifyDb fun txdb => txdb.updateTxIndex txin.prevout.hash
          { txindex with vSpent := txindex.vSpent.set txin.prevout.n .null }
        relinquish vin

/-- `CTransaction::DisconnectInputs`. -/
def disconnectInputs (E : Env) (tx : CTransaction) : Node Unit := do
  relinquish (if tx.isCoinBase then [] else tx.vin)
  modifyDb fun txdb => txdb.eraseTxIndex (E.txHash tx)

end Espers
