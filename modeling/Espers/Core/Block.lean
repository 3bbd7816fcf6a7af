import Espers.Core.Transaction

/-!
# Blocks: hashes, proof of work and context-free checks

`Env` collects what the chain logic takes as given: the hash functions, the script interpreter
(signature checks, counts of signature operations, standardness) and the chain parameters.

`checkBlock` is `CBlock::CheckBlock`; `checkBlock_spec` says what a block that passes it is known to
satisfy (`BlockSane`).
-/

namespace Espers

open Exec List

/-- Hash functions, script evaluation and chain parameters. -/
structure Env where
  /-- `SerializeHash` of a transaction. -/
  txHash : CTransaction → Uint256
  /-- `Hash_hmq1725` of a block header. -/
  headerHash : CBlockHeader → Uint256
  /-- `Hash` of two concatenated hashes, for the Merkle tree. -/
  pairHash : Uint256 → Uint256 → Uint256
  /-- `VerifySignature(txFrom, txTo, nIn, flags, 0)`. -/
  verifySignature : CTransaction → CTransaction → ℕ → ℕ → Bool
  /-- `GetLegacySigOpCount`. -/
  getLegacySigOpCount : CTransaction → ℕ
  /-- `GetP2SHSigOpCount`. -/
  getP2SHSigOpCount : CTransaction → MapPrevTx → ℕ
  /-- `CBlock::CheckBlockSignature`. -/
  checkBlockSignature : CBlock → Bool
  /-- `IsStandardTx`. -/
  isStandardTx : CTransaction → Bool
  /-- `AreInputsStandard`. -/
  areInputsStandard : CTransaction → MapPrevTx → Bool
  /-- `TestNet()`. -/
  testNet : Bool
  /-- `Params().HashGenesisBlock()`. -/
  hashGenesisBlock : Uint256
  /-- `Params().ProofOfWorkLimit()`. -/
  proofOfWorkLimit : ℤ
  /-- `Params().StartPoSBlock()`. -/
  startPoSBlock : ℤ
  /-- `Checkpoints::GetTotalBlocksEstimate()`. -/
  getTotalBlocksEstimate : ℤ

/-! ### Targets -/

/-- `CBigNum::SetCompact`: a size byte, a sign bit and a 23-bit mantissa. -/
def setCompact (nCompact : ℕ) : ℤ :=
  let nSize := nCompact / 2 ^ 24 % 256
  let word := nCompact % 2 ^ 24
  let mantissa := word % 2 ^ 23
  let magnitude : ℕ :=
    if nSize ≤ 3 then mantissa / 256 ^ (3 - nSize) else mantissa * 256 ^ (nSize - 3)
  if 2 ^ 23 ≤ word then -(magnitude : ℤ) else magnitude

/-- `CheckProofOfWork`. -/
def checkProofOfWork (E : Env) (hash : Uint256) (nBits : ℕ) : Except Stop Unit := do
  let bnTarget := setCompact nBits
  rejectIf (bnTarget ≤ 0 ∨ bnTarget > E.proofOfWorkLimit)
    (.error "CheckProofOfWork() : nBits below minimum work")
  rejectIf ((hash.toNat : ℤ) > bnTarget) (.error "CheckProofOfWork() : hash doesn't match nBits")

/-- `CBlockIndex::GetBlockTrust`: the expected number of hashes for the target. -/
def getBlockTrust (nBits : ℕ) : Uint256 :=
  let bnTarget := setCompact nBits
  if bnTarget ≤ 0 then 0 else BitVec.ofInt 256 (2 ^ 256 / (bnTarget + 1))

/-- `CBlock::GetHash`. -/
def CBlock.getHash (E : Env) (block : CBlock) : Uint256 := E.headerHash block.toCBlockHeader

/-- `CDiskBlockIndex::GetBlockHash`, from the header fields of the record. -/
def CDiskBlockIndex.getBlockHash (E : Env) (d : CDiskBlockIndex) : Uint256 := E.headerHash d.header

/-- One row of the Merkle tree: the hashes of the pairs of the `nSize` nodes from `j` on, the last
node paired with itself when their number is odd. -/
def merkleRow (E : Env) (vMerkleTree : List Uint256) (j nSize : ℕ) : List Uint256 :=
  (List.range ((nSize + 1) / 2)).map fun k =>
    E.pairHash (vMerkleTree.getD (j + 2 * k) 0)
      (vMerkleTree.getD (j + min (2 * k + 1) (nSize - 1)) 0)

/-- The rows above the leaves; each has half the nodes of the one below. -/
def merkleRows (E : Env) : ℕ → List Uint256 → ℕ → ℕ → List Uint256
  | 0, vMerkleTree, _, _ => vMerkleTree
  | fuel + 1, vMerkleTree, j, nSize =>
    if nSize ≤ 1 then vMerkleTree
    else merkleRows E fuel (vMerkleTree ++ merkleRow E vMerkleTree j nSize) (j + nSize)
      ((nSize + 1) / 2)

/-- `CBlock::BuildMerkleTree`: the last node of the tree. -/
def CBlock.buildMerkleTree (E : Env) (block : CBlock) : Uint256 :=
  (merkleRows E block.vtx.length (block.vtx.map E.txHash) 0 block.vtx.length).getLastD 0

/-! ### Context-free checks -/

/-- `sysUpgrade_01`. -/
def sysUpgrade01 : ℤ := 674400

/-- `IsProtocolV3`. -/
def isProtocolV3 (E : Env) (nTime : ℤ) : Bool := E.testNet || decide (nTime > 1535673600)

/-- `FutureDrift`; the source hands the height to the time test of `IsProtocolV3`. -/
def futureDrift (E : Env) (nTime nHeight : ℤ) : ℤ :=
  if isProtocolV3 E nHeight then nTime + 10 * 60 / 2 else nTime + 10 * 60

/-- The penalty a failed check has put on the transaction. -/
def Stop.nDoS : Stop → ℕ
  | .dos n _ => n
  | _ => 0

/-- The loop of `CheckBlock` over the transactions. -/
def checkTransactions (maxBlockSize : ℕ) (nTime : ℕ) : List CTransaction → Except Stop Unit
  | [] => .ok ()
  | tx :: vtx => do
    (checkTransaction maxBlockSize tx).mapError fun e =>
      .dos e.nDoS "CheckBlock() : CheckTransaction failed"
    rejectIf (nTime < tx.nTime)
      (.dos 50 "CheckBlock() : block timestamp earlier than transaction timestamp")
    checkTransactions maxBlockSize nTime vtx

/-- The limits in force and the clock, as `CheckBlock` reads them. -/
structure Limits where
  /-- `MAX_BLOCK_SIZE`. -/
  maxBlockSize : ℕ
  /-- `MAX_BLOCK_SIGOPS`. -/
  maxBlockSigops : ℕ
  /-- `GetAdjustedTime()`. -/
  adjustedTime : ℤ

/-- The proof-of-work check of `CheckBlock`. -/
def checkHeaderWork (E : Env) (block : CBlock) (fCheckPOW : Bool) : Except Stop Unit :=
  if fCheckPOW && block.isProofOfWork then
    (checkProofOfWork E (block.getHash E) block.nBits).mapError fun _ =>
      .dos 50 "CheckBlock() : proof of work failed"
  else .ok ()

/-- The check of `CheckBlock` that a block is a proof-of-stake block or contains no coinstake. -/
def checkStakeShape (block : CBlock) : Except Stop Unit :=
  if block.isProofOfStake then do
    rejectIf (¬ (block.vtx.head?.any fun tx => decide (tx.vout.length = 1) &&
        tx.vout.head?.any CTxOut.isEmpty))
      (.dos 100 "CheckBlock() : coinbase output not empty for proof-of-stake block")
    rejectIf (¬ (block.vtx[1]?.any CTransaction.isCoinStake))
      (.dos 100 "CheckBlock() : second tx is not coinstake")
  else
    rejectIf ((block.vtx.drop 1).any CTransaction.isCoinStake)
      (.dos 100 "CheckBlock() : proof of work block contains coinstake")

/-- `CBlock::CheckBlock`; `nHeight` is the height of the best block. -/
def checkBlock (E : Env) (lim : Limits) (nHeight : ℕ) (block : CBlock)
    (fCheckPOW fCheckMerkleRoot fCheckSig : Bool) : Except Stop Unit := do
  rejectIf (block.vtx = [] ∨ block.vtx.length > lim.maxBlockSize ∨
      block.getSerializeSize > lim.maxBlockSize)
    (.dos 100 "CheckBlock() : size limits failed")
  checkHeaderWork E block fCheckPOW
  rejectIf ((block.nTime : ℤ) > futureDrift E lim.adjustedTime nHeight)
    (.error "CheckBlock() : block timestamp too far in the future")
  rejectIf (¬ (block.vtx.head?.any CTransaction.isCoinBase))
    (.dos 100 "CheckBlock() : first tx is not coinbase")
  rejectIf ((block.vtx.drop 1).any CTransaction.isCoinBase)
    (.dos 100 "CheckBlock() : more than one coinbase")
  rejectIf ((block.vtx.drop 2).any CTransaction.isCoinStake)
    (.dos 100 "CheckBlock() : more than one coinstake")
  checkStakeShape block
  rejectIf (fCheckSig ∧ ¬ E.checkBlockSignature block)
    (.dos 100 "CheckBlock() : bad proof-of-stake block signature")
  checkTransactions lim.maxBlockSize block.nTime block.vtx
  rejectIf (¬ (block.vtx.map E.txHash).Nodup) (.dos 100 "CheckBlock() : duplicate transaction")
  rejectIf ((block.vtx.map E.getLegacySigOpCount).sum > lim.maxBlockSigops)
    (.dos 100 "CheckBlock() : out-of-bounds SigOpCount")
  rejectIf (fCheckMerkleRoot ∧ block.hashMerkleRoot ≠ block.buildMerkleTree E)
    (.dos 100 "CheckBlock() : hashMerkleRoot mismatch")

/-- What a block that passes `checkBlock` satisfies. -/
structure BlockSane (E : Env) (block : CBlock) : Prop where
  coinbase : ∃ cb rest, block.vtx = cb :: rest ∧ cb.isCoinBase = true ∧
    ∀ tx ∈ rest, tx.isCoinBase = false
  txs : ∀ tx ∈ block.vtx, TxSane tx
  nodup : (block.vtx.map E.txHash).Nodup
  pow : block.isProofOfStake = false → ∀ tx ∈ block.vtx.drop 1, tx.isCoinStake = false

theorem sane_of_checkTransactions {maxBlockSize nTime : ℕ} {vtx : List CTransaction} {u : Unit}
    (h : checkTransactions maxBlockSize nTime vtx = .ok u) : ∀ tx ∈ vtx, TxSane tx := by
  induction vtx with
  | nil => simp
  | cons tx vtx ih =>
    simp only [checkTransactions, except_bind_eq_ok, except_mapError_eq_ok, rejectIf_eq_ok, exists_const] at h
    obtain ⟨_, h1, -, h2⟩ := h
    intro t ht
    rcases mem_cons.1 ht with rfl | ht
    · exact checkTransaction_spec h1
    · exact ih h2 t ht

theorem checkBlock_spec {E : Env} {lim : Limits} {nHeight : ℕ} {block : CBlock} {p m s : Bool}
    {u : Unit} (h : checkBlock E lim nHeight block p m s = .ok u) : BlockSane E block := by
  simp only [checkBlock, except_bind_eq_ok, rejectIf_eq_ok, exists_const, not_not] at h
  obtain ⟨-, _, -, -, hcb, hone, -, _, hstake, -, _, htxs, hnodup, -⟩ := h
  refine ⟨?_, sane_of_checkTransactions htxs, hnodup, fun hpos tx htx => ?_⟩
  · cases hv : block.vtx with
    | nil => rw [hv] at hcb; simp at hcb
    | cons cb rest =>
      rw [hv] at hcb hone
      refine ⟨cb, rest, rfl, by simpa using hcb, fun tx htx => ?_⟩
      have := hone
      simp only [any_eq_true, not_exists, not_and, Bool.not_eq_true] at this
      exact this tx htx
  · rw [checkStakeShape, hpos] at hstake
    simp only [Bool.false_eq_true, ↓reduceIte, rejectIf_eq_ok, any_eq_true, not_exists,
      not_and, Bool.not_eq_true] at hstake
    exact hstake tx htx

theorem BlockSane.vtx_ne {E : Env} {block : CBlock} (h : BlockSane E block) : block.vtx ≠ [] := by
  obtain ⟨cb, rest, hv, -⟩ := h.coinbase
  rw [hv]
  exact cons_ne_nil _ _

end Espers
