import Espers.Core.Block

/-!
# The transactions of the wallet

The wallet keeps the transactions that involve it in `mapWallet`, and for each of them flags the
outputs that are spent.  It is told about transactions by `SyncTransaction`, when one enters the
memory pool and when a block with it is connected or disconnected; `CommitTransaction` adds its own.

The functions have the names of the source.  A runtime error ends a function and leaves what it has
done.
-/

namespace Espers

open Exec

/-- A transaction of the wallet: what is known about its block, and the flags of its outputs. -/
structure CWalletTx extends CTransaction where
  hashBlock : Uint256
  vMerkleBranch : List Uint256
  nIndex : ℤ
  fFromMe : Bool
  vfSpent : List Bool
  deriving DecidableEq

/-- What the wallet takes for its own, and the least value it cares for. -/
structure Keystore where
  /-- `::IsMine(keystore, txout.scriptPubKey)`. -/
  isMine : CTxOut → Bool
  nMinimumInputValue : ℤ

/-- The wallet. -/
structure Wallet where
  mapWallet : AList fun _ : Uint256 => CWalletTx

/-! ### The flags -/

namespace CWalletTx

/-- `CWalletTx(pwallet, tx)`. -/
def ofTx (tx : CTransaction) : CWalletTx :=
  { tx with hashBlock := 0, vMerkleBranch := [], nIndex := -1, fFromMe := false, vfSpent := [] }

/-- `vfSpent.resize(vout.size())`. -/
def resized (wtx : CWalletTx) : List Bool :=
  wtx.vfSpent.take wtx.vout.length ++ List.replicate (wtx.vout.length - wtx.vfSpent.length) false

/-- `CWalletTx::IsSpent`. -/
def isSpent (wtx : CWalletTx) (nOut : ℕ) : Except Stop Bool :=
  if nOut ≥ wtx.vout.length then .error (.exception "CWalletTx::IsSpent() : nOut out of range")
  else .ok (wtx.vfSpent.getD nOut false)

/-- `CWalletTx::MarkSpent`. -/
def markSpent (wtx : CWalletTx) (nOut : ℕ) : Except Stop CWalletTx :=
  if nOut ≥ wtx.vout.length then .error (.exception "CWalletTx::MarkSpent() : nOut out of range")
  else .ok { wtx with vfSpent := wtx.resized.set nOut true }

/-- `CWalletTx::MarkUnspent`. -/
def markUnspent (wtx : CWalletTx) (nOut : ℕ) : Except Stop CWalletTx :=
  if nOut ≥ wtx.vout.length then .error (.exception "CWalletTx::MarkUnspent() : nOut out of range")
  else .ok { wtx with vfSpent := wtx.resized.set nOut false }

/-- The flags after `CWalletTx::UpdateSpent`. -/
def updateSpent : List Bool → List Bool → List Bool
  | [], vfSpent => vfSpent
  | _ :: _, [] => []
  | fNew :: vfNewSpent, f :: vfSpent => (f || fNew) :: updateSpent vfNewSpent vfSpent

/-- The loop of `CBlock::GetMerkleBranch`. -/
def merkleBranch (vMerkleTree : List Uint256) : ℕ → ℕ → ℕ → ℕ → List Uint256
  | 0, _, _, _ => []
  | fuel + 1, j, nSize, nIndex =>
    if nSize ≤ 1 then []
    else vMerkleTree.getD (j + min (nIndex ^^^ 1) (nSize - 1)) 0 ::
      merkleBranch vMerkleTree fuel (j + nSize) ((nSize + 1) / 2) (nIndex / 2)

/-- `CMerkleTx::SetMerkleBranch` of a given block. -/
def setMerkleBranch (E : Env) (pblock : CBlock) (wtx : CWalletTx) : CWalletTx :=
  let wtx := { wtx with hashBlock := pblock.getHash E }
  match pblock.vtx.findIdx? (· = wtx.toCTransaction) with
  | none => { wtx with vMerkleBranch := [], nIndex := -1 }
  | some nIndex =>
    let vMerkleTree := merkleRows E pblock.vtx.length (pblock.vtx.map E.txHash) 0 pblock.vtx.length
    { wtx with
      vMerkleBranch := merkleBranch vMerkleTree pblock.vtx.length 0 pblock.vtx.length nIndex
      nIndex := nIndex }

end CWalletTx

namespace Wallet

/-- `CWallet::GetDebit` of an input. -/
def getDebitIn (K : Keystore) (w : Wallet) (txin : CTxIn) : ℤ :=
  match w.mapWallet.lookup txin.prevout.hash with
  | none => 0
  | some prev =>
    match prev.vout[txin.prevout.n]? with
    | none => 0
    | some txout => if K.isMine txout then txout.nValue else 0

/-- The loop of `CWallet::GetDebit`. -/
def sumDebit (K : Keystore) (w : Wallet) (nDebit : ℤ) : List CTxIn → Except Stop ℤ
  | [] => .ok nDebit
  | txin :: vin => do
    let nDebit := add64 nDebit (w.getDebitIn K txin)
    rejectIf (!moneyRange nDebit) (.exception "CWallet::GetDebit() : value out of range")
    sumDebit K w nDebit vin

/-- `CWallet::IsFromMe`. -/
def isFromMe (K : Keystore) (w : Wallet) (tx : CTransaction) : Except Stop Bool := do
  let nDebit ← w.sumDebit K 0 tx.vin
  .ok (decide (nDebit > 0))

end Wallet

/-- `CWallet::IsMine` of a transaction. -/
def Keystore.isMineTx (K : Keystore) (tx : CTransaction) : Bool :=
  tx.vout.any fun txout => K.isMine txout && decide (txout.nValue ≥ K.nMinimumInputValue)

/-- An entry of `mapWallet` is replaced. -/
def Wallet.put (w : Wallet) (hash : Uint256) (wtx : CWalletTx) : Wallet :=
  ⟨w.mapWallet.insert hash wtx⟩

/-- The first loop of `WalletUpdateSpent`: the inputs of a transaction are flagged as spent.
`GetCredit`, for the log, throws for no wallet transaction: `CheckTransaction` has seen its sums. -/
def markInputs (K : Keystore) : List CTxIn → EStateM Stop Wallet Unit
  | [] => pure ()
  | txin :: vin => do
    let w ← get
    match w.mapWallet.lookup txin.prevout.hash with
    | none => markInputs K vin
    | some wtx =>
      match wtx.vout[txin.prevout.n]? with
      | none => markInputs K vin
      | some txout => do
        let fSpent ← lift (wtx.isSpent txin.prevout.n)
        if !fSpent && K.isMine txout then do
          let wtx ← lift (wtx.markSpent txin.prevout.n)
          set (w.put txin.prevout.hash wtx)
          markInputs K vin
        else markInputs K vin

/-- The second loop of `WalletUpdateSpent`: the own outputs of a transaction in a block are flagged
as not spent. -/
def unmarkOutputs (K : Keystore) (hash : Uint256) : ℕ → List CTxOut → EStateM Stop Wallet Unit
  | _, [] => pure ()
  | i, txout :: vout => do
    if K.isMine txout then do
      let w ← get
      match w.mapWallet.lookup hash with
      | none => throw (.crash "WalletUpdateSpent() : mapWallet.end()")
      | some wtx => do
        let wtx ← lift (wtx.markUnspent i)
        set (w.put hash wtx)
        unmarkOutputs K hash (i + 1) vout
    else unmarkOutputs K hash (i + 1) vout

/-- `CWallet::WalletUpdateSpent`. -/
def walletUpdateSpent (E : Env) (K : Keystore) (tx : CTransaction) (fBlock : Bool) :
    EStateM Stop Wallet Unit := do
  markInputs K tx.vin
  if fBlock then unmarkOutputs K (E.txHash tx) 0 tx.vout else pure ()

/-- `AddToWallet` of a transaction that is there already: the two are merged; the answer is
`fUpdated`. -/
def mergeTx (wtx wtxIn : CWalletTx) : CWalletTx × Bool :=
  let newBlock := wtxIn.hashBlock ≠ 0 ∧ wtxIn.hashBlock ≠ wtx.hashBlock
  let newIndex := wtxIn.nIndex ≠ -1 ∧
    (wtxIn.vMerkleBranch ≠ wtx.vMerkleBranch ∨ wtxIn.nIndex ≠ wtx.nIndex)
  let newFrom := wtxIn.fFromMe ∧ ¬ wtx.fFromMe
  let vfSpent := CWalletTx.updateSpent wtxIn.vfSpent wtx.vfSpent
  ({ wtx with
      hashBlock := if newBlock then wtxIn.hashBlock else wtx.hashBlock
      vMerkleBranch := if newIndex then wtxIn.vMerkleBranch else wtx.vMerkleBranch
      nIndex := if newIndex then wtxIn.nIndex else wtx.nIndex
      fFromMe := if newFrom then wtxIn.fFromMe else wtx.fFromMe
      vfSpent := vfSpent },
    decide (newBlock ∨ newIndex ∨ newFrom ∨ vfSpent ≠ wtx.vfSpent))

/-- `CWallet::AddToWallet`; `writes` says whether `WriteToDisk` succeeds. -/
def addToWallet (E : Env) (K : Keystore) (writes : Bool) (wtxIn : CWalletTx) :
    EStateM Stop Wallet Bool := do
  let hash := E.txHash wtxIn.toCTransaction
  let w ← get
  let (wtx, fChanged) := match w.mapWallet.lookup hash with
    | none => (wtxIn, true)
    | some wtx => mergeTx wtx wtxIn
  set (w.put hash wtx)
  if fChanged && !writes then pure false
  else do
    walletUpdateSpent E K wtx.toCTransaction (decide (wtxIn.hashBlock ≠ 0))
    pure true

/-- `CWallet::AddToWalletIfInvolvingMe` with `fUpdate`. -/
def addToWalletIfInvolvingMe (E : Env) (K : Keystore) (writes : Bool) (tx : CTransaction)
    (pblock : Option CBlock) : EStateM Stop Wallet Bool := do
  let w ← get
  let fInvolved ←
    if (w.mapWallet.lookup (E.txHash tx)).isSome || K.isMineTx tx then pure true
    else lift (w.isFromMe K tx)
  if fInvolved then
    -- Get merkle branch if transaction was found in a block
    addToWallet E K writes (match pblock with
      | none => .ofTx tx
      | some pblock => (CWalletTx.ofTx tx).setMerkleBranch E pblock)
  else do
    walletUpdateSpent E K tx false
    pure false

/-! ### Commits and notifications -/

/-- `mapWallet[hash]`, which adds an empty transaction of the time `now` if there is none. -/
def Wallet.subscript (w : Wallet) (now : ℕ) (hash : Uint256) : CWalletTx :=
  (w.mapWallet.lookup hash).getD (.ofTx ⟨1, now, [], [], 0⟩)

/-- The loops of `CommitTransaction` and `SyncTransaction` that mark old coins as spent. -/
def markCoins (now : ℕ) : List CTxIn → EStateM Stop Wallet Unit
  | [] => pure ()
  | txin :: vin => do
    let w ← get
    let coin := w.subscript now txin.prevout.hash
    set (w.put txin.prevout.hash coin)
    let coin ← lift (coin.markSpent txin.prevout.n)
    set (w.put txin.prevout.hash coin)
    markCoins now vin

/-- The loop of `DisableTransaction`. -/
def unmarkInputs (K : Keystore) : List CTxIn → EStateM Stop Wallet Unit
  | [] => pure ()
  | txin :: vin => do
    let w ← get
    match w.mapWallet.lookup txin.prevout.hash with
    | none => unmarkInputs K vin
    | some prev =>
      match prev.vout[txin.prevout.n]? with
      | none => unmarkInputs K vin
      | some txout =>
        if K.isMine txout then do
          let prev ← lift (prev.markUnspent txin.prevout.n)
          set (w.put txin.prevout.hash prev)
          unmarkInputs K vin
        else unmarkInputs K vin

/-- `CWallet::DisableTransaction`: the inputs of a coinstake are refunded. -/
def disableTransaction (K : Keystore) (tx : CTransaction) : EStateM Stop Wallet Unit := do
  let w ← get
  let fFromMe ← if tx.isCoinStake then lift (w.isFromMe K tx) else pure false
  if fFromMe then unmarkInputs K tx.vin else pure ()

/-- `CWallet::SyncTransaction`. -/
def syncTransaction (E : Env) (K : Keystore) (writes : Bool) (now : ℕ) (tx : CTransaction)
    (pblock : Option CBlock) (fConnect fFixSpentCoins : Bool) : EStateM Stop Wallet Unit := do
  if !fConnect then
    -- wallets need to refund inputs when disconnecting coinstake
    if tx.isCoinStake then do
      let w ← get
      let fFromMe ← lift (w.isFromMe K tx)
      if fFromMe then disableTransaction K tx else pure ()
    else pure ()
  else do
    let _ ← addToWalletIfInvolvingMe E K writes tx pblock
    if fFixSpentCoins then markCoins now tx.vin else pure ()

/-- `CWallet::CommitTransaction`; `accepted` is the answer of `AcceptToMemoryPool`, which notifies
the wallet of a transaction it accepts. -/
def commitTransaction (E : Env) (K : Keystore) (writes : Bool) (now : ℕ) (accepted : Bool)
    (wtxNew : CWalletTx) : EStateM Stop Wallet Bool := do
  let _ ← addToWallet E K writes wtxNew
  -- Mark old coins as spent
  markCoins now wtxNew.vin
  if accepted then do
    syncTransaction E K writes now wtxNew.toCTransaction none true false
    pure true
  else pure false

/-- `CWallet::AvailableCoins`: the outputs on offer.  `skips` collects the tests of the loop that
are about the chain, `selected` is the coin control. -/
def Wallet.availableCoins (K : Keystore) (w : Wallet) (skips : CWalletTx → Bool)
    (selected : Uint256 → ℕ → Bool) : List COutPoint :=
  w.mapWallet.entries.flatMap fun it =>
    if skips it.2 then []
    else ((List.range it.2.vout.length).filter fun i =>
      (it.2.isSpent i = .ok false) && (it.2.vout[i]?.any fun txout => K.isMine txout &&
        decide (txout.nValue ≥ K.nMinimumInputValue)) && selected it.1 i).map fun i => ⟨it.1, i⟩

end Espers
