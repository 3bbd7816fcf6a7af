import Mathlib.Data.List.AList

/-!
# The data of the chain

Transactions, blocks, and the records the node keeps about them: the transaction index (`CTxIndex`,
where a transaction lies on disk and which of its outputs are spent) and the block index
(`CBlockIndex` in memory, `CDiskBlockIndex` on disk).

A `CBlockIndex*` is the hash under which the entry is filed in `mapBlockIndex`; entries are never
removed, so the two identify the same object.
-/

namespace Espers

/-- A 256-bit hash or trust score. -/
abbrev Uint256 := BitVec 256

/-- A script, as its bytes. -/
abbrev CScript := List UInt8

/-- `(unsigned int) -1`. -/
def uintMax : ℕ := 0xFFFFFFFF

theorem one_lt_uintMax : 1 < uintMax := by decide

/-- A transaction hash and an index into its `vout`. -/
structure COutPoint where
  hash : Uint256
  n : ℕ
  deriving DecidableEq, Repr, Inhabited

/-- The outpoint of a coinbase input. -/
def COutPoint.null : COutPoint := ⟨0, uintMax⟩

/-- Test for the null outpoint. -/
def COutPoint.isNull (o : COutPoint) : Bool := o.hash == 0 && o.n == uintMax

/-- An input. -/
structure CTxIn where
  prevout : COutPoint
  scriptSig : CScript
  nSequence : ℕ
  deriving DecidableEq, Repr, Inhabited

/-- The input may not be replaced. -/
def CTxIn.isFinal (txin : CTxIn) : Bool := txin.nSequence == uintMax

/-- An output. -/
structure CTxOut where
  nValue : ℤ
  scriptPubKey : CScript
  deriving DecidableEq, Repr, Inhabited

/-- The output is the marker of a coinstake. -/
def CTxOut.isEmpty (txout : CTxOut) : Bool := txout.nValue == 0 && txout.scriptPubKey.isEmpty

/-- A transaction. -/
structure CTransaction where
  nVersion : ℤ
  nTime : ℕ
  vin : List CTxIn
  vout : List CTxOut
  nLockTime : ℕ
  deriving DecidableEq, Repr, Inhabited

namespace CTransaction

/-- One input, and it spends nothing. -/
def isCoinBase (tx : CTransaction) : Bool :=
  match tx.vin with
  | [txin] => txin.prevout.isNull && decide (1 ≤ tx.vout.length)
  | _ => false

/-- The first output is empty. -/
def isCoinStake (tx : CTransaction) : Bool :=
  match tx.vin, tx.vout with
  | txin :: _, txout :: _ :: _ => !txin.prevout.isNull && txout.isEmpty
  | _, _ => false

/-- The outpoints the transaction consumes: none for a coinbase. -/
def spends (tx : CTransaction) : List COutPoint :=
  if tx.isCoinBase then [] else tx.vin.map CTxIn.prevout

end CTransaction

/-! ### Places on disk -/

/-- Where a transaction lies on disk.  File number `-1` marks the null position, which has no
offsets. -/
structure CDiskTxPos where
  nFile : ℕ
  nBlockPos : ℕ
  nTxPos : ℕ
  /-- A null position is the one `SetNull` writes. -/
  null_eq : nFile = uintMax → nBlockPos = 0 ∧ nTxPos = 0
  deriving DecidableEq, Repr

namespace CDiskTxPos

/-- The null position. -/
def null : CDiskTxPos := ⟨uintMax, 0, 0, fun _ => ⟨rfl, rfl⟩⟩

/-- Test for the null position. -/
def isNull (p : CDiskTxPos) : Bool := p.nFile == uintMax

/-- The position recorded for transactions that are not in a block yet. -/
def inMemory : CDiskTxPos := ⟨1, 1, 1, by decide⟩

@[simp] theorem isNull_null : null.isNull = true := rfl

theorem isNull_iff {p : CDiskTxPos} : p.isNull = true ↔ p = null := by
  constructor
  · intro h
    obtain ⟨f, b, t, hn⟩ := p
    simp only [isNull, beq_iff_eq] at h
    obtain ⟨rfl, rfl⟩ := hn h
    subst h
    rfl
  · rintro rfl; rfl

theorem isNull_eq_false {p : CDiskTxPos} : p.isNull = false ↔ p ≠ null := by
  rw [ne_eq, ← isNull_iff, Bool.not_eq_true]

end CDiskTxPos

/-- The record about one transaction: its place on disk and, for each output, the place of the
transaction that spends it (null while unspent). -/
structure CTxIndex where
  pos : CDiskTxPos
  vSpent : List CDiskTxPos
  deriving DecidableEq, Repr

/-- The record of a new transaction with `nOutputs` outputs. -/
def CTxIndex.ofOutputs (pos : CDiskTxPos) (nOutputs : ℕ) : CTxIndex :=
  ⟨pos, List.replicate nOutputs .null⟩

/-! ### Blocks -/

/-- What the block hash covers. -/
structure CBlockHeader where
  nVersion : ℤ
  hashPrevBlock : Uint256
  hashMerkleRoot : Uint256
  nTime : ℕ
  nBits : ℕ
  nNonce : ℕ
  deriving DecidableEq, Repr, Inhabited

/-- A block. -/
structure CBlock extends CBlockHeader where
  vtx : List CTransaction
  vchBlockSig : List UInt8
  deriving DecidableEq, Repr, Inhabited

namespace CBlock

/-- The second transaction is a coinstake. -/
def isProofOfStake (block : CBlock) : Bool :=
  match block.vtx with
  | _ :: tx :: _ => tx.isCoinStake
  | _ => false

/-- Not a proof-of-stake block. -/
def isProofOfWork (block : CBlock) : Bool := !block.isProofOfStake

/-- The kernel outpoint and time of a proof-of-stake block, the null ones otherwise. -/
def getProofOfStake (block : CBlock) : COutPoint × ℕ :=
  match block.vtx with
  | _ :: tx :: _ =>
    match tx.vin with
    | txin :: _ => if tx.isCoinStake then (txin.prevout, tx.nTime) else (.null, 0)
    | [] => (.null, 0)
  | _ => (.null, 0)

end CBlock

/-- An entry of the block index. -/
structure CBlockIndex where
  hashBlock : Uint256
  pprev : Option Uint256
  pnext : Option Uint256
  nFile : ℕ
  nBlockPos : ℕ
  nChainTrust : Uint256
  nHeight : ℕ
  nMint : ℤ
  nMoneySupply : ℤ
  nFlags : ℕ
  nStakeModifier : ℕ
  bnStakeModifierV2 : Uint256
  prevoutStake : COutPoint
  nStakeTime : ℕ
  hashProof : Uint256
  nVersion : ℤ
  hashMerkleRoot : Uint256
  nTime : ℕ
  nBits : ℕ
  nNonce : ℕ
  /-- The block has been written to a file before it is indexed. -/
  nFile_lt : nFile < uintMax
  deriving DecidableEq, Repr

namespace CBlockIndex

/-- `BLOCK_PROOF_OF_STAKE` is set. -/
def isProofOfStake (e : CBlockIndex) : Bool := e.nFlags.testBit 0

/-- The place of a transaction of this block. -/
def txPos (e : CBlockIndex) (nTxPos : ℕ) : CDiskTxPos :=
  ⟨e.nFile, e.nBlockPos, nTxPos, fun h => absurd h (Nat.ne_of_lt e.nFile_lt)⟩

theorem txPos_ne_null (e : CBlockIndex) (nTxPos : ℕ) : e.txPos nTxPos ≠ .null := by
  intro h
  have := congrArg CDiskTxPos.nFile h
  exact absurd this (Nat.ne_of_lt e.nFile_lt)

end CBlockIndex

/-- An entry of which only the links and the height are set. -/
def linkEntry (hashBlock : Uint256) (pprev : Option Uint256) (nHeight : ℕ) : CBlockIndex where
  hashBlock := hashBlock
  pprev := pprev
  pnext := none
  nFile := 1
  nBlockPos := 0
  nChainTrust := 0
  nHeight := nHeight
  nMint := 0
  nMoneySupply := 0
  nFlags := 0
  nStakeModifier := 0
  bnStakeModifierV2 := 0
  prevoutStake := .null
  nStakeTime := 0
  hashProof := 0
  nVersion := 7
  hashMerkleRoot := 0
  nTime := 0
  nBits := 0
  nNonce := 0
  nFile_lt := one_lt_uintMax

/-- The block index record of the database: the pointers are hashes, `0` for none. -/
structure CDiskBlockIndex extends CBlockIndex where
  hashPrev : Uint256
  hashNext : Uint256
  deriving DecidableEq, Repr

/-- The record of an entry. -/
def CDiskBlockIndex.ofIndex (e : CBlockIndex) : CDiskBlockIndex :=
  { e with hashPrev := e.pprev.getD 0, hashNext := e.pnext.getD 0 }

/-- The header the record was made of. -/
def CDiskBlockIndex.header (d : CDiskBlockIndex) : CBlockHeader :=
  ⟨d.nVersion, d.hashPrev, d.hashMerkleRoot, d.nTime, d.nBits, d.nNonce⟩

/-- Previous transactions with their index records, by hash. -/
abbrev MapPrevTx := AList fun _ : Uint256 => CTxIndex × CTransaction

/-- Queued changes of the transaction index, by hash. -/
abbrev MapTxIndex := AList fun _ : Uint256 => CTxIndex

/-- The block index in memory. -/
abbrev BlockMap := AList fun _ : Uint256 => CBlockIndex

end Espers
