import Espers.Core.Transaction
import Espers.Lib.Wire

/-!
# The serialization of transactions and blocks

Fields are written one after the other, vectors behind their length.  Bytes are read in one piece up
to five million, other elements into vectors that grow by as many as fit into five million bytes.

* `reads_transaction`, `reads_block` : what is read is what was written, and nothing else is read.
* `CTransaction.length_serialize` : **the number of bytes written is the serialized size**.
-/

namespace Espers

open Wire List Option Prod Nat

/-- `MAX_SIZE`. -/
def maxSize : ℕ := 0x02000000

/-- The integers of an input are 32 bits wide. -/
structure CTxIn.Fits (vin : CTxIn) : Prop where
  n : vin.prevout.n < 2 ^ 32
  nSequence : vin.nSequence < 2 ^ 32

/-- `sizeof` of the elements of vectors. -/
structure Sizeof where
  txIn : ℕ
  txOut : ℕ
  tx : ℕ
  txIn_fits : 0 < 5000000 / txIn
  txOut_fits : 0 < 5000000 / txOut
  tx_fits : 0 < 5000000 / tx

/-! ### Serialization -/

/-- The serialization of an input. -/
def CTxIn.write (vin : CTxIn) : List UInt8 :=
  writeBits 32 vin.prevout.hash ++ (bytesLE 4 vin.prevout.n ++
    (writeVector vin.scriptSig ++ bytesLE 4 vin.nSequence))

/-- The serialization of an output. -/
def CTxOut.serialize (txout : CTxOut) : List UInt8 :=
  writeInt 8 txout.nValue ++ writeVector txout.scriptPubKey

/-- The serialization of a transaction. -/
def CTransaction.serialize (tx : CTransaction) : List UInt8 :=
  writeInt 4 tx.nVersion ++ (bytesLE 4 tx.nTime ++ (writeList CTxIn.write tx.vin ++
    (writeList CTxOut.serialize tx.vout ++ bytesLE 4 tx.nLockTime)))

/-- The serialization of a header. -/
def CBlockHeader.serialize (header : CBlockHeader) : List UInt8 :=
  writeInt 4 header.nVersion ++ (writeBits 32 header.hashPrevBlock ++
    (writeBits 32 header.hashMerkleRoot ++ (bytesLE 4 header.nTime ++ (bytesLE 4 header.nBits ++
      bytesLE 4 header.nNonce))))

/-- `nType & (SER_GETHASH|SER_BLOCKHEADERONLY)`. -/
def headerOnly (nType : ℕ) : Bool := nType &&& (2 ^ 2 ||| 2 ^ 17) != 0

/-- The serialization of a block. -/
def CBlock.serialize (nType : ℕ) (block : CBlock) : List UInt8 :=
  block.toCBlockHeader.serialize ++
    if headerOnly nType then []
    else writeList CTransaction.serialize block.vtx ++ writeVector block.vchBlockSig

/-! ### Unserialization -/

/-- A byte vector is read in pieces. -/
def readBytesVector : Reader (List UInt8) := readVectorChunks maxSize (1 + 4999999 / 1)

/-- An input is read field by field. -/
def CTxIn.unserialize : Reader CTxIn := fun b => do
  let (hash, b) ← readBits 256 32 b
  let (n, b) ← readWord 4 b
  let (scriptSig, b) ← readBytesVector b
  let (nSequence, b) ← readWord 4 b
  return (⟨⟨hash, n⟩, scriptSig, nSequence⟩, b)

/-- An output is read field by field. -/
def CTxOut.unserialize : Reader CTxOut := fun b => do
  let (nValue, b) ← readInt 8 b
  let (scriptPubKey, b) ← readBytesVector b
  return (⟨nValue, scriptPubKey⟩, b)

/-- A transaction is read field by field. -/
def CTransaction.unserialize (S : Sizeof) : Reader CTransaction := fun b => do
  let (nVersion, b) ← readInt 4 b
  let (nTime, b) ← readWord 4 b
  let (vin, b) ← readList maxSize (5000000 / S.txIn) CTxIn.unserialize b
  let (vout, b) ← readList maxSize (5000000 / S.txOut) CTxOut.unserialize b
  let (nLockTime, b) ← readWord 4 b
  return (⟨nVersion, nTime, vin, vout, nLockTime⟩, b)

/-- A header is read field by field. -/
def CBlockHeader.unserialize : Reader CBlockHeader := fun b => do
  let (nVersion, b) ← readInt 4 b
  let (hashPrevBlock, b) ← readBits 256 32 b
  let (hashMerkleRoot, b) ← readBits 256 32 b
  let (nTime, b) ← readWord 4 b
  let (nBits, b) ← readWord 4 b
  let (nNonce, b) ← readWord 4 b
  return (⟨nVersion, hashPrevBlock, hashMerkleRoot, nTime, nBits, nNonce⟩, b)

/-- A block is read field by field. -/
def CBlock.unserialize (S : Sizeof) (nType : ℕ) : Reader CBlock := fun b => do
  let (header, b) ← CBlockHeader.unserialize b
  if headerOnly nType then return (⟨header, [], []⟩, b)
  else do
    let (vtx, b) ← readList maxSize (5000000 / S.tx) (CTransaction.unserialize S) b
    let (vchBlockSig, b) ← readBytesVector b
    return (⟨header, vtx, vchBlockSig⟩, b)

/-- The integers fit, and the script is not too long. -/
structure CTxIn.Bounded (txin : CTxIn) : Prop where
  fits : txin.Fits
  scriptSig : txin.scriptSig.length ≤ maxSize

/-- The value fits, and the script is not too long. -/
structure CTxOut.Bounded (txout : CTxOut) : Prop where
  nValue : -2 ^ 63 ≤ txout.nValue ∧ txout.nValue < 2 ^ 63
  scriptPubKey : txout.scriptPubKey.length ≤ maxSize

/-- The integers fit, and no vector is too long. -/
structure CTransaction.Bounded (tx : CTransaction) : Prop where
  nVersion : -2 ^ 31 ≤ tx.nVersion ∧ tx.nVersion < 2 ^ 31
  nTime : tx.nTime < 2 ^ 32
  vin : tx.vin.length ≤ maxSize ∧ ∀ txin ∈ tx.vin, txin.Bounded
  vout : tx.vout.length ≤ maxSize ∧ ∀ txout ∈ tx.vout, txout.Bounded
  nLockTime : tx.nLockTime < 2 ^ 32

/-- The integers of a header fit. -/
structure CBlockHeader.Fits (header : CBlockHeader) : Prop where
  nVersion : -2 ^ 31 ≤ header.nVersion ∧ header.nVersion < 2 ^ 31
  nTime : header.nTime < 2 ^ 32
  nBits : header.nBits < 2 ^ 32
  nNonce : header.nNonce < 2 ^ 32

/-- The integers fit, and no vector is too long. -/
structure CBlock.Bounded (block : CBlock) : Prop where
  header : block.toCBlockHeader.Fits
  vtx : block.vtx.length ≤ maxSize ∧ ∀ tx ∈ block.vtx, tx.Bounded
  vchBlockSig : block.vchBlockSig.length ≤ maxSize

/-! ### What is read -/

section Read

variable {S : Sizeof} {nType : ℕ}

theorem reads_bytesVector : Wire.Reads readBytesVector writeVector (·.length ≤ maxSize) := by
  rw [readBytesVector, readVectorChunks_eq (by decide)]
  exact reads_vector (by decide)

theorem reads_int4 : Wire.Reads (readInt 4) (writeInt 4) (fun z => -2 ^ 31 ≤ z ∧ z < 2 ^ 31) := by
  intro b z r
  rw [reads_int 4 b z r]
  refine and_congr_left fun _ => ?_
  omega

theorem reads_txin : Wire.Reads CTxIn.unserialize CTxIn.write CTxIn.Bounded := by
  intro b txin r
  have hhash := reads_bits (w := 256) (k := 32) (by decide)
  simp only [CTxIn.unserialize, bind_eq_bind, hhash.bind_eq_some,
    (reads_word 4).bind_eq_some, reads_bytesVector.bind_eq_some, Option.pure_def, Option.some.injEq,
    Prod.mk.injEq]
  constructor
  · rintro ⟨hash, b1, -, rfl, n, b2, hn, rfl, scriptSig, b3, hscript, rfl, nSequence, b4, hseq, rfl,
      rfl, rfl⟩
    exact ⟨⟨⟨hn, hseq⟩, hscript⟩, by simp [CTxIn.write]⟩
  · rintro ⟨⟨⟨hn, hseq⟩, hscript⟩, rfl⟩
    refine ⟨txin.prevout.hash, _, trivial, ?_, txin.prevout.n, _, hn, rfl,
      txin.scriptSig, _, hscript, rfl, txin.nSequence, r, hseq, rfl, rfl, rfl⟩
    simp [CTxIn.write]

theorem reads_txOut : Wire.Reads CTxOut.unserialize CTxOut.serialize CTxOut.Bounded := by
  intro b txout r
  simp only [CTxOut.unserialize, bind_eq_bind, (reads_int 8).bind_eq_some,
    reads_bytesVector.bind_eq_some, Option.pure_def, Option.some.injEq, Prod.mk.injEq]
  constructor
  · rintro ⟨nValue, b1, ⟨hlow, hhigh⟩, rfl, scriptPubKey, b2, hscript, rfl, rfl, rfl⟩
    exact ⟨⟨by dsimp only; omega, hscript⟩, by simp [CTxOut.serialize]⟩
  · rintro ⟨⟨⟨hlow, hhigh⟩, hscript⟩, rfl⟩
    refine ⟨txout.nValue, _, by norm_num; omega, ?_, txout.scriptPubKey, r, hscript, rfl, rfl, rfl⟩
    simp [CTxOut.serialize]

theorem reads_transaction (S : Sizeof) :
    Wire.Reads (CTransaction.unserialize S) CTransaction.serialize CTransaction.Bounded := by
  intro b tx r
  have hvin := reads_list (show maxSize < 256 ^ 8 by decide) S.txIn_fits reads_txin
  have hvout := reads_list (show maxSize < 256 ^ 8 by decide) S.txOut_fits reads_txOut
  simp only [CTransaction.unserialize, bind_eq_bind, reads_int4.bind_eq_some,
    (reads_word 4).bind_eq_some, hvin.bind_eq_some, hvout.bind_eq_some, Option.pure_def,
    some.injEq, Prod.mk.injEq]
  constructor
  · rintro ⟨nVersion, b1, hversion, rfl, nTime, b2, htime, rfl, vin, b3, hvin, rfl, vout,
      b4, hvout, rfl, nLockTime, b5, hlock, rfl, rfl, rfl⟩
    exact ⟨⟨hversion, htime, hvin, hvout, hlock⟩, by simp [CTransaction.serialize]⟩
  · rintro ⟨⟨hversion, htime, hvin, hvout, hlock⟩, rfl⟩
    refine ⟨tx.nVersion, _, hversion, ?_, tx.nTime, _, htime, rfl, tx.vin, _, hvin, rfl,
      tx.vout, _, hvout, rfl, tx.nLockTime, r, hlock, rfl, rfl, rfl⟩
    simp [CTransaction.serialize]

theorem reads_header :
    Wire.Reads CBlockHeader.unserialize CBlockHeader.serialize CBlockHeader.Fits := by
  intro b header r
  have hhash := reads_bits (w := 256) (k := 32) (by decide)
  simp only [CBlockHeader.unserialize, bind_eq_bind, reads_int4.bind_eq_some,
    hhash.bind_eq_some, (reads_word 4).bind_eq_some, Option.pure_def, Option.some.injEq,
    Prod.mk.injEq]
  constructor
  · rintro ⟨nVersion, b1, hversion, rfl, hashPrevBlock, b2, -, rfl, hashMerkleRoot, b3, -,
      rfl, nTime, b4, htime, rfl, nBits, b5, hbits, rfl, nNonce, b6, hnonce, rfl, rfl, rfl⟩
    exact ⟨⟨hversion, htime, hbits, hnonce⟩, by simp [CBlockHeader.serialize]⟩
  · rintro ⟨⟨hversion, htime, hbits, hnonce⟩, rfl⟩
    refine ⟨header.nVersion, _, hversion, ?_, header.hashPrevBlock, _, trivial, rfl,
      header.hashMerkleRoot, _, trivial, rfl, header.nTime, _, htime, rfl, header.nBits, _, hbits,
      rfl, header.nNonce, r, hnonce, rfl, rfl, rfl⟩
    simp [CBlockHeader.serialize]

theorem reads_block (S : Sizeof) (hfull : headerOnly nType = false) :
    Wire.Reads (CBlock.unserialize S nType) (CBlock.serialize nType) CBlock.Bounded := by
  intro b block r
  have hvtx := reads_list (show maxSize < 256 ^ 8 by decide) S.tx_fits (reads_transaction S)
  simp only [CBlock.unserialize, hfull, Bool.false_eq_true, if_false, bind_eq_bind,
    reads_header.bind_eq_some, hvtx.bind_eq_some, reads_bytesVector.bind_eq_some, Option.pure_def,
    some.injEq, Prod.mk.injEq]
  constructor
  · rintro ⟨header, b1, hheader, rfl, vtx, b2, hvtx, rfl, vchBlockSig, b3, hsig, rfl, rfl, rfl⟩
    exact ⟨⟨hheader, hvtx, hsig⟩, by simp [CBlock.serialize, hfull]⟩
  · rintro ⟨⟨hheader, hvtx, hsig⟩, rfl⟩
    refine ⟨block.toCBlockHeader, _, hheader, ?_, block.vtx, _, hvtx, rfl,
      block.vchBlockSig, r, hsig, rfl, rfl, rfl⟩
    simp [CBlock.serialize, hfull]

end Read

theorem length_writeVector (x : List UInt8) : (writeVector x).length = sizeOfBytes x := by
  rw [writeVector, length_append, length_writeCompactSize]
  rfl

theorem length_writeList {α : Type*} {write : α → List UInt8} {size : α → ℕ}
    (h : ∀ x, (write x).length = size x) (xs : List α) :
    (writeList write xs).length = getSizeOfCompactSize xs.length + (xs.map size).sum := by
  rw [writeList, length_append, length_writeCompactSize, length_flatMap]
  simp only [h]
  rfl

theorem CTxIn.length_write (txin : CTxIn) : txin.write.length = txin.getSerializeSize := by
  simp only [write, writeBits, length_append, length_bytesLE, length_writeVector, getSerializeSize]
  omega

theorem CTxOut.length_serialize (txout : CTxOut) :
    txout.serialize.length = txout.getSerializeSize := by
  simp only [serialize, writeInt, length_append, length_bytesLE, length_writeVector,
    getSerializeSize]

/-- **The number of bytes written is the serialized size.** -/
theorem CTransaction.length_serialize (tx : CTransaction) :
    tx.serialize.length = tx.getSerializeSize := by
  simp only [serialize, writeInt, length_append, length_bytesLE,
    length_writeList CTxIn.length_write, length_writeList CTxOut.length_serialize, getSerializeSize]
  omega

theorem CBlock.length_serialize {nType : ℕ} (hfull : headerOnly nType = false) (block : CBlock) :
    (block.serialize nType).length = block.getSerializeSize := by
  simp only [serialize, hfull, Bool.false_eq_true, if_false, CBlockHeader.serialize,
    writeInt, writeBits, length_append, length_bytesLE,
    length_writeList CTransaction.length_serialize,
    length_writeVector, getSerializeSize, headerSize]
  omega

/-! ### The codec -/

/-- `GetSerializeSize`, an `unsigned int`. -/
def CTransaction.serSize (tx : CTransaction) : ℕ := tx.getSerializeSize % 2 ^ 32

/-- `GetSerializeSize`, an `unsigned int`. -/
def CBlock.serSize (block : CBlock) : ℕ := block.getSerializeSize % 2 ^ 32

/-- **What is written is read again, and what is read is what would be written**, for transactions
and for blocks with their transactions.  The serialized size is the number of bytes modulo `2 ^ 32`.
Two transactions that were read are the same exactly if the bytes they were read from are; their
hashes are the same exactly then if the hash function does not collide on these bytes. -/
theorem codec_roundTrip (S : Sizeof) (nType : ℕ) (hfull : headerOnly nType = false) :
    (∀ tx : CTransaction, tx.Bounded → tx.serialize.length % 2 ^ 32 = tx.serSize ∧
      ∀ r, CTransaction.unserialize S (tx.serialize ++ r) = some (tx, r)) ∧
    (∀ block : CBlock, block.Bounded → (block.serialize nType).length % 2 ^ 32 = block.serSize ∧
      ∀ r, CBlock.unserialize S nType (block.serialize nType ++ r) = some (block, r)) ∧
    (∀ b tx r, CTransaction.unserialize S b = some (tx, r) → b = tx.serialize ++ r) ∧
    (∀ b block r, CBlock.unserialize S nType b = some (block, r) → b = block.serialize nType ++ r) ∧
    ∀ x x' tx tx', CTransaction.unserialize S x = some (tx, []) →
      CTransaction.unserialize S x' = some (tx', []) → (tx = tx' ↔ x = x') ∧
      ∀ hash : List UInt8 → Uint256, (hash x = hash x' → x = x') →
        (hash tx.serialize = hash tx'.serialize ↔ x = x') := by
  have htx := reads_transaction S
  have hblock := reads_block S hfull
  refine ⟨fun tx hb => ⟨?_, fun r => htx.write_append hb r⟩,
    fun block hb => ⟨?_, fun r => hblock.write_append hb r⟩,
    fun b tx r h => ((htx b tx r).1 h).2, fun b block r h => ((hblock b block r).1 h).2, ?_⟩
  · rw [tx.length_serialize]
    rfl
  · rw [block.length_serialize hfull]
    rfl
  · intro x x' tx tx' h h'
    obtain ⟨-, rfl⟩ := (htx x tx []).1 h
    obtain ⟨-, rfl⟩ := (htx x' tx' []).1 h'
    simp only [append_nil] at h h' ⊢
    have heq : tx = tx' ↔ tx.serialize = tx'.serialize := by
      constructor
      · rintro rfl
        rfl
      · intro hser
        rw [hser, h'] at h
        exact (mk.inj (some.inj h)).1.symm
    exact ⟨heq, fun hash hcoll => ⟨hcoll, fun hser => by rw [hser]⟩⟩

/-- The elements take as many bytes as on a usual machine. -/
def usualSizeof : Sizeof where
  txIn := 72
  txOut := 32
  tx := 80
  txIn_fits := by norm_num
  txOut_fits := by norm_num
  tx_fits := by norm_num

theorem codec_roundTrip_disk : headerOnly 4 = true ∧ headerOnly 2 = false ∧
    (∀ tx : CTransaction, tx.Bounded → tx.serialize.length % 2 ^ 32 = tx.serSize ∧
      ∀ r, CTransaction.unserialize usualSizeof (tx.serialize ++ r) = some (tx, r)) ∧
    (∀ block : CBlock, block.Bounded → (block.serialize 2).length % 2 ^ 32 = block.serSize ∧
      ∀ r, CBlock.unserialize usualSizeof 2 (block.serialize 2 ++ r) = some (block, r)) ∧
    (∀ b tx r, CTransaction.unserialize usualSizeof b = some (tx, r) → b = tx.serialize ++ r) ∧
    (∀ b block r, CBlock.unserialize usualSizeof 2 b = some (block, r) →
      b = block.serialize 2 ++ r) ∧
    ∀ x x' tx tx', CTransaction.unserialize usualSizeof x = some (tx, []) →
      CTransaction.unserialize usualSizeof x' = some (tx', []) → (tx = tx' ↔ x = x') ∧
      ∀ hash : List UInt8 → Uint256, (hash x = hash x' → x = x') →
        (hash tx.serialize = hash tx'.serialize ↔ x = x') :=
  ⟨rfl, rfl, codec_roundTrip usualSizeof 2 rfl⟩

/-- A transaction with `n` inputs whose scripts are `k` bytes long. -/
def replicatedTx (n k : ℕ) : CTransaction :=
  ⟨1, 0, replicate n ⟨⟨0, 0⟩, replicate k 0, 0⟩, [], 0⟩

theorem replicatedTx_bounded {n k : ℕ} (hn : n ≤ maxSize) (hk : k ≤ maxSize) :
    (replicatedTx n k).Bounded where
  nVersion := by
    rw [replicatedTx]
    norm_num
  nTime := Nat.two_pow_pos 32
  vin := by
    refine ⟨length_replicate.trans_le hn, fun txin h => ?_⟩
    rw [(mem_replicate.1 h).2]
    exact ⟨⟨Nat.two_pow_pos 32, Nat.two_pow_pos 32⟩, length_replicate.trans_le hk⟩
  vout := ⟨zero_le _, fun txout h => absurd h not_mem_nil⟩
  nLockTime := Nat.two_pow_pos 32

theorem replicatedTx_getSerializeSize {n k : ℕ} (hn : n < 253) (hk : 0xFFFF < k)
    (hk' : k ≤ maxSize) : (replicatedTx n k).getSerializeSize = n * (k + 45) + 14 := by
  have hscript : sizeOfBytes (replicate k 0) = 5 + k := by
    rw [maxSize] at hk'
    rw [sizeOfBytes, length_replicate, getSizeOfCompactSize, if_neg (by omega),
      if_neg (by omega), if_pos (by omega)]
  have hvin : getSizeOfCompactSize n = 1 := if_pos hn
  have hvout : getSizeOfCompactSize 0 = 1 := rfl
  have hin : 36 + (5 + k) + 4 = k + 45 := by omega
  simp only [CTransaction.getSerializeSize, replicatedTx, map_replicate,
    sum_replicate_nat, length_replicate, CTxIn.getSerializeSize, hscript,
    hin, map_nil, sum_nil, length_nil]
  omega

/-- A transaction of more than `2 ^ 32` bytes is longer than its serialized size says. -/
theorem serSize_wraps : ∃ tx : CTransaction, tx.Bounded ∧
    CTransaction.unserialize usualSizeof tx.serialize = some (tx, []) ∧
    tx.serialize.length = 4294973070 ∧ tx.serSize = 5774 := by
  have hbounded : (replicatedTx 128 maxSize).Bounded :=
    replicatedTx_bounded (by rw [maxSize]; norm_num only) le_rfl
  have hsize : (replicatedTx 128 maxSize).getSerializeSize = 4294973070 := by
    rw [replicatedTx_getSerializeSize (by norm_num only) (by rw [maxSize]; norm_num only) le_rfl,
      maxSize]
  generalize replicatedTx 128 maxSize = tx at hbounded hsize
  refine ⟨tx, hbounded, ?_, ?_, ?_⟩
  · have h := (reads_transaction usualSizeof).write_append hbounded []
    rwa [append_nil] at h
  · rw [CTransaction.length_serialize, hsize]
  · rw [CTransaction.serSize, hsize]
    norm_num only

end Espers
