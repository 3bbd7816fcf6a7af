import Espers.Chain.RewardRule
import Espers.Core.Codec

/-!
# Where transactions lie in the block files

`BlockDisk` holds the bytes of the block files.  `WriteToDisk` appends a block to one of them behind
the message start and the size; `ConnectBlock` works out from the offset of the block where its
transactions are, and `ReadFromDisk` reads one of them there.

* `positions_readFromDisk` : **the index points to the transactions of a connected block** that came
  in a message, and `ReadFromDisk` returns them.
-/

namespace Espers

open Exec Wire Function Nat Relation Option
open List hiding Vector

/-! ### The source -/

/-- `SER_DISK`. -/
def serDisk : ℕ := 2

/-- What `blk0001.dat` and the files after it contain. -/
structure BlockDisk where
  nCurrentBlockFile : ℕ
  file : ℕ → List UInt8

namespace BlockDisk

/-- `OpenBlockFile`: the numbers 0 and `-1` are refused. -/
def openBlockFile (D : BlockDisk) (nFile : ℕ) : Option (List UInt8) :=
  if nFile < 1 ∨ uintMax ≤ nFile then none else some (D.file nFile)

/-- `AppendBlockFile`: the first file from the current one on that has room left. -/
def appendBlockFile (D : BlockDisk) (nFile : ℕ) : Option ℕ :=
  if nFile < 1 ∨ uintMax ≤ nFile then none
  else if (D.file nFile).length < 0x7F000000 - maxSize then some nFile
  else D.appendBlockFile (nFile + 1)
termination_by uintMax - nFile

/-- `CBlock::WriteToDisk`; the offset is an `unsigned int`. -/
def writeToDisk (messageStart : Vector UInt8 4) (D : BlockDisk) (block : CBlock) :
    Option (BlockDisk × ℕ × ℕ) :=
  (D.appendBlockFile D.nCurrentBlockFile).map fun nFile =>
    let file := D.file nFile ++ (messageStart.toList ++ bytesLE 4 block.serSize)
    (⟨nFile, update D.file nFile (file ++ block.serialize serDisk)⟩, nFile, file.length % 2 ^ 32)

/-- `CTransaction::ReadFromDisk`. -/
def readFromDisk (S : Sizeof) (D : BlockDisk) (pos : CDiskTxPos) : Option CTransaction := do
  let filein ← D.openBlockFile pos.nFile
  let (tx, _) ← CTransaction.unserialize S (filein.drop pos.nTxPos)
  return tx

end BlockDisk

/-- `CBlock()`. -/
def CBlock.null : CBlock := ⟨⟨7, 0, 0, 0, 0, 0⟩, [], []⟩

/-- `nTxPos` before the loop of `ConnectBlock`, an `unsigned int`. -/
def nTxPosStart (nBlockPos : ℕ) (block : CBlock) : ℕ :=
  (nBlockPos + CBlock.null.serSize - 2 * getSizeOfCompactSize 0 +
    getSizeOfCompactSize block.vtx.length) % 2 ^ 32

/-- The values of `nTxPos` at the turns of the transactions. -/
def nTxPositions : ℕ → List CTransaction → List ℕ
  | _, [] => []
  | nTxPos, tx :: vtx => nTxPos :: nTxPositions ((nTxPos + tx.serSize) % 2 ^ 32) vtx

/-- The offset of transaction `k` of a block at `nBlockPos`. -/
def txOffset (nBlockPos : ℕ) (block : CBlock) (k : ℕ) : ℕ :=
  firstTxPos nBlockPos block + ((block.vtx.take k).map CTransaction.getSerializeSize).sum

variable {S : Sizeof} {messageStart : Vector UInt8 4} {D D1 D2 : BlockDisk} {block : CBlock}
  {nFile nBlockPos pos k : ℕ} {vtx : List CTransaction} {tx : CTransaction} {fs : BlockFiles}

theorem nTxPosStart_eq : nTxPosStart nBlockPos block = firstTxPos nBlockPos block % 2 ^ 32 := by
  have hnull : CBlock.null.serSize - 2 * getSizeOfCompactSize 0 = headerSize := by decide
  have hle : 2 * getSizeOfCompactSize 0 ≤ CBlock.null.serSize := by decide
  rw [nTxPosStart, Nat.add_sub_assoc hle, hnull, firstTxPos]

theorem nTxPositions_get (hk : k < vtx.length) : (nTxPositions (pos % 2 ^ 32) vtx)[k]? =
    some ((pos + ((vtx.take k).map CTransaction.getSerializeSize).sum) % 2 ^ 32) := by
  induction vtx generalizing pos k with
  | nil => cases hk
  | cons tx vtx ih =>
    cases k with
    | zero => simp [nTxPositions]
    | succ k =>
      have hadd : (pos % 2 ^ 32 + tx.serSize) % 2 ^ 32 = (pos + tx.getSerializeSize) % 2 ^ 32 :=
        (add_mod _ _ _).symm
      rw [nTxPositions, getElem?_cons_succ, hadd, ih (lt_of_succ_lt_succ hk),
        take_succ_cons, map_cons, sum_cons, add_assoc]

theorem nTxPositions_block (hk : k < block.vtx.length) :
    (nTxPositions (nTxPosStart nBlockPos block) block.vtx)[k]? =
      some (txOffset nBlockPos block k % 2 ^ 32) := by
  rw [nTxPosStart_eq, nTxPositions_get hk, txOffset]

theorem CBlockHeader.length_serialize (header : CBlockHeader) :
    header.serialize.length = headerSize := by
  simp only [serialize, writeInt, writeBits, length_append, length_bytesLE, headerSize]

/-- The bytes of transaction `k` of a block. -/
theorem serialize_drop (hk : k < block.vtx.length) (r : List UInt8) :
    ∃ rest, (block.serialize serDisk ++ r).drop (txOffset 0 block k) =
      block.vtx[k].serialize ++ rest := by
  have hfull : headerOnly serDisk = false := by decide
  have hsize : ∀ tx : CTransaction, tx.serialize.length = tx.getSerializeSize :=
    CTransaction.length_serialize
  refine ⟨(block.vtx.drop (k + 1)).flatMap CTransaction.serialize ++
    (writeVector block.vchBlockSig ++ r), ?_⟩
  have hoff : txOffset 0 block k = (block.toCBlockHeader.serialize ++
      writeCompactSize block.vtx.length).length +
        ((block.vtx.take k).map fun tx => tx.serialize.length).sum := by
    rw [length_append, CBlockHeader.length_serialize, length_writeCompactSize, txOffset,
      firstTxPos, getSizeOfCompactSize]
    simp only [hsize, zero_add]
  have hbytes : block.serialize serDisk ++ r = (block.toCBlockHeader.serialize ++
      writeCompactSize block.vtx.length) ++ (block.vtx.flatMap CTransaction.serialize ++
        (writeVector block.vchBlockSig ++ r)) := by
    simp only [CBlock.serialize, hfull, Bool.false_eq_true, if_false, writeList, append_assoc]
  rw [hbytes, hoff, drop_append, drop_of_length_le (le_add_right _ _),
    Nat.add_sub_cancel_left, nil_append, drop_flatMap _ _ hk]

theorem file_drop {file pre r : List UInt8} (hfile : file = pre ++ (block.serialize serDisk ++ r))
    (hk : k < block.vtx.length) :
    ∃ rest, file.drop (txOffset pre.length block k) = block.vtx[k].serialize ++ rest := by
  obtain ⟨rest, hrest⟩ := serialize_drop hk r
  have hoff : txOffset pre.length block k = pre.length + txOffset 0 block k := by
    simp only [txOffset, firstTxPos]
    omega
  refine ⟨rest, ?_⟩
  rw [hfile, hoff, ← drop_drop, drop_left' rfl, hrest]

/-! ### Writing -/

namespace BlockDisk

theorem appendBlockFile_spec {n m : ℕ} (h : D.appendBlockFile n = some m) :
    1 ≤ m ∧ m < uintMax ∧ (D.file m).length < 0x7F000000 - maxSize := by
  induction n using appendBlockFile.induct D with
  | case1 n hn =>
    rw [appendBlockFile, if_pos hn] at h
    cases h
  | case2 n hn hroom =>
    rw [appendBlockFile, if_neg hn, if_pos hroom, some.injEq] at h
    subst h
    exact ⟨by omega, by omega, hroom⟩
  | case3 n hn hroom ih =>
    rw [appendBlockFile, if_neg hn, if_neg hroom] at h
    exact ih h

/-- What a successful write has done. -/
structure Written (messageStart : Vector UInt8 4) (D : BlockDisk) (block : CBlock)
    (D1 : BlockDisk) (nFile nBlockPos : ℕ) : Prop where
  number : 1 ≤ nFile ∧ nFile < uintMax
  chosen : D.appendBlockFile D.nCurrentBlockFile = some nFile
  current : D1.nCurrentBlockFile = nFile
  start : nBlockPos = (D.file nFile).length + 8
  small : nBlockPos < 2 ^ 32
  bytes : D1.file nFile = D.file nFile ++ (messageStart.toList ++ bytesLE 4 block.serSize) ++
    block.serialize serDisk
  others : ∀ n, n ≠ nFile → D1.file n = D.file n

theorem written_of_writeToDisk
    (h : D.writeToDisk messageStart block = some (D1, nFile, nBlockPos)) :
    Written messageStart D block D1 nFile nBlockPos := by
  obtain ⟨m, hm, heq⟩ := map_eq_some_iff.1 h
  obtain ⟨h1, h2, hroom⟩ := appendBlockFile_spec hm
  simp only [Prod.mk.injEq] at heq
  obtain ⟨rfl, rfl, rfl⟩ := heq
  have hlen : (D.file m ++ (messageStart.toList ++ bytesLE 4 block.serSize)).length =
      (D.file m).length + 8 := by
    simp only [length_append, Vector.length_toList, length_bytesLE]
  have hmod : ((D.file m).length + 8) % 2 ^ 32 = (D.file m).length + 8 :=
    mod_eq_of_lt (by omega)
  rw [hlen, hmod]
  refine ⟨⟨h1, h2⟩, hm, rfl, rfl, by omega, ?_, fun n hn => ?_⟩
  · exact update_self _ _ _
  · exact update_of_ne hn _ _

theorem Written.pre_length (h : Written messageStart D block D1 nFile nBlockPos) :
    (D.file nFile ++ (messageStart.toList ++ bytesLE 4 block.serSize)).length = nBlockPos := by
  simp only [h.start, length_append, Vector.length_toList, length_bytesLE]

theorem Written.grows (h : Written messageStart D block D1 nFile nBlockPos) (n : ℕ) :
    D.file n <+: D1.file n := by
  by_cases hn : n = nFile
  · subst hn
    rw [h.bytes, append_assoc]
    exact prefix_append _ _
  · rw [h.others n hn]

/-- A block has been written. -/
def Writes (messageStart : Vector UInt8 4) (D D1 : BlockDisk) : Prop :=
  ∃ block nFile nBlockPos, D.writeToDisk messageStart block = some (D1, nFile, nBlockPos)

/-- **Files are only appended to**, however many blocks are written. -/
theorem prefix_of_writes (h : ReflTransGen (Writes messageStart) D D1) (n : ℕ) :
    D.file n <+: D1.file n := by
  induction h with
  | refl => exact prefix_rfl
  | tail _ hstep ih =>
    obtain ⟨block, nFile, nBlockPos, hwrite⟩ := hstep
    exact ih.trans ((written_of_writeToDisk hwrite).grows n)

theorem Written.drop (h : Written messageStart D block D1 nFile nBlockPos)
    (hlater : ReflTransGen (Writes messageStart) D1 D2) (hk : k < block.vtx.length) :
    ∃ rest, (D2.file nFile).drop (txOffset nBlockPos block k) = block.vtx[k].serialize ++ rest := by
  obtain ⟨r, hr⟩ := prefix_of_writes hlater nFile
  rw [h.bytes, append_assoc] at hr
  obtain ⟨rest, hrest⟩ := file_drop hr.symm hk
  rw [h.pre_length] at hrest
  exact ⟨rest, hrest⟩

theorem readFromDisk_eq_some_iff {p : CDiskTxPos} {rest : List UInt8}
    (hnum : 1 ≤ p.nFile ∧ p.nFile < uintMax)
    (hdrop : (D.file p.nFile).drop p.nTxPos = tx.serialize ++ rest) :
    D.readFromDisk S p = some tx ↔ tx.Bounded := by
  have hopen : D.openBlockFile p.nFile = some (D.file p.nFile) := by
    rw [openBlockFile, if_neg (by omega)]
  have hread : D.readFromDisk S p = (CTransaction.unserialize S (tx.serialize ++ rest)).map
      Prod.fst := by
    rw [readFromDisk, hopen, bind_eq_bind, bind_some, hdrop]
    cases CTransaction.unserialize S (tx.serialize ++ rest) <;> rfl
  rw [hread, map_eq_some_iff]
  constructor
  · rintro ⟨⟨tx', r⟩, hx, rfl⟩
    exact ((reads_transaction S _ _ _).1 hx).1
  · intro hb
    exact ⟨(tx, rest), (reads_transaction S).write_append hb rest, rfl⟩

end BlockDisk

/-! ### The index -/

section Index

variable {E : Env} {e : CBlockIndex} {v : View} {h : Uint256} {i : CTxIndex}

theorem connectTxs_record (pos : ℕ) (hv : v h = some i) (hh : ∀ tx ∈ vtx, E.txHash tx ≠ h) :
    ∃ j, connectTxs E e pos vtx v h = some j ∧ j.pos = i.pos := by
  induction vtx generalizing pos v i with
  | nil => exact ⟨i, hv, rfl⟩
  | cons tx vtx ih =>
    have hne : h ≠ E.txHash tx := (hh tx mem_cons_self).symm
    have hstep : connectTx E (e.txPos pos) tx v h =
        some { i with vSpent := setSlots (e.txPos pos) tx.spends h i.vSpent } := by
      rw [connectTx, update_of_ne hne, markAll, hv, map_some]
    obtain ⟨j, hj, hpos⟩ := ih (pos + tx.getSerializeSize) hstep
      fun x hx => hh x (mem_cons_of_mem _ hx)
    exact ⟨j, hj, hpos⟩

/-- The record of transaction `k` of a block after all of them have been connected. -/
theorem connectTxs_get (pos : ℕ) (hnd : (vtx.map E.txHash).Nodup) (hk : k < vtx.length) :
    ∃ j, connectTxs E e pos vtx v (E.txHash vtx[k]) = some j ∧
      j.pos = e.txPos (pos + ((vtx.take k).map CTransaction.getSerializeSize).sum) := by
  induction vtx generalizing pos v k with
  | nil => cases hk
  | cons tx vtx ih =>
    rw [map_cons, nodup_cons] at hnd
    cases k with
    | zero =>
      have hstep : connectTx E (e.txPos pos) tx v (E.txHash tx) =
          some (.ofOutputs (e.txPos pos) tx.vout.length) := by
        rw [connectTx, update_self]
      refine connectTxs_record _ hstep fun x hx heq => hnd.1 ?_
      rw [← heq]
      exact mem_map_of_mem hx
    | succ k =>
      obtain ⟨j, hj, hpos⟩ := ih (pos + tx.getSerializeSize)
        (v := connectTx E (e.txPos pos) tx v) hnd.2 (lt_of_succ_lt_succ hk)
      refine ⟨j, hj, ?_⟩
      rw [hpos, take_succ_cons, map_cons, sum_cons, add_assoc]

variable {ctx : Ctx} {p : Uint256} {w w' : World}

/-- **The positions in the index**: the record of transaction `k` of a connected block holds its
offset. -/
theorem connectBlock_positions (he : w.mapBlockIndex.lookup p = some e)
    (hconnect : connectBlock E ctx block p w = .ok () w') (hk : k < block.vtx.length) :
    ∃ i, w'.txdb.readTxIndex (E.txHash block.vtx[k]) = some i ∧
      i.pos = e.txPos (txOffset e.nBlockPos block k) := by
  obtain ⟨c⟩ := connectBlock_spec hconnect
  have hentry : c.e = e := some.inj (c.entry.symm.trans he)
  obtain ⟨i, hi, hpos⟩ := connectTxs_get (e := c.e) (v := w.txdb.view)
    (firstTxPos c.e.nBlockPos block) c.sane.nodup hk
  rw [← c.view] at hi
  rw [hentry] at hpos
  exact ⟨i, hi, hpos⟩

end Index

/-! ### A first block -/

namespace Simnet

/-- The block files before the block is written. -/
def genesisDisk : BlockDisk := ⟨1, fun n => if n = 1 then List.replicate 242 0 else []⟩

theorem genesisDisk_writes (messageStart : Vector UInt8 4) (block : CBlock) :
    ∃ D1, genesisDisk.writeToDisk messageStart block = some (D1, 1, 250) := by
  have hlen : (genesisDisk.file 1).length = 242 := length_replicate
  have happend : genesisDisk.appendBlockFile genesisDisk.nCurrentBlockFile = some 1 := by
    have hcurrent : genesisDisk.nCurrentBlockFile = 1 := rfl
    rw [hcurrent, BlockDisk.appendBlockFile, if_neg (by decide), hlen, if_pos (by decide)]
  have hplace : (genesisDisk.writeToDisk messageStart block).map Prod.snd = some (1, 250) := by
    simp [BlockDisk.writeToDisk, happend, hlen]
  obtain ⟨⟨D1, place⟩, hwrite, rfl⟩ := map_eq_some_iff.1 hplace
  exact ⟨D1, hwrite⟩

end Simnet

open Simnet

/-! ### The index points to the transactions -/

/-- What the deserializer reads from a message of at most `MAX_SIZE` bytes. -/
structure CBlock.Receivable (block : CBlock) : Prop where
  bounded : block.Bounded
  size_le : block.getSerializeSize ≤ maxSize

theorem receivable_iff (S : Sizeof) : block.Receivable ↔ ∃ msg r, msg.length ≤ maxSize ∧
    CBlock.unserialize S serDisk msg = some (block, r) := by
  have hfull : headerOnly serDisk = false := by decide
  have hsize := CBlock.length_serialize hfull block
  constructor
  · intro h
    refine ⟨block.serialize serDisk, [], hsize.trans_le h.size_le, ?_⟩
    have hread := (reads_block S hfull).write_append h.bounded []
    rwa [append_nil] at hread
  · rintro ⟨msg, r, hlen, hread⟩
    obtain ⟨hbounded, rfl⟩ := (reads_block S hfull _ _ _).1 hread
    rw [length_append, hsize] at hlen
    exact ⟨hbounded, by omega⟩

/-- The transactions of a block start within its size. -/
theorem txOffset_le (nBlockPos : ℕ) (block : CBlock) (k : ℕ) :
    txOffset nBlockPos block k ≤ nBlockPos + block.getSerializeSize := by
  have hsum : ((block.vtx.take k).map CTransaction.getSerializeSize).sum ≤
      (block.vtx.map CTransaction.getSerializeSize).sum :=
    ((take_sublist k block.vtx).map _).sum_le_sum fun _ _ => zero_le _
  rw [txOffset, firstTxPos, CBlock.getSerializeSize]
  omega

/-- **The index points to the transactions of a connected block.**  `ConnectBlock` connects a block
that was written to a file, at whatever offset; any number of blocks may have been written since.
The position of every transaction is the one that the source counts, its serialization starts there,
and `ReadFromDisk` returns it. -/
theorem positions_readFromDisk (S : Sizeof) (hblock : block.Receivable)
    (hwrite : D.writeToDisk messageStart block = some (D1, nFile, nBlockPos))
    (hlater : ReflTransGen (BlockDisk.Writes messageStart) D1 D2) {E : Env} {ctx : Ctx}
    {p : Uint256} {w w' : World} {e : CBlockIndex} (he : w.mapBlockIndex.lookup p = some e)
    (hplace : e.nFile = nFile ∧ e.nBlockPos = nBlockPos)
    (hconnect : connectBlock E ctx block p w = .ok () w') (hk : k < block.vtx.length) :
    ∃ i n, w'.txdb.readTxIndex (E.txHash block.vtx[k]) = some i ∧ i.pos = e.txPos n ∧
      (nTxPositions (nTxPosStart nBlockPos block) block.vtx)[k]? = some n ∧
      (∃ rest, (D2.file nFile).drop n = block.vtx[k].serialize ++ rest) ∧
      D2.readFromDisk S i.pos = some block.vtx[k] := by
  obtain ⟨rfl, rfl⟩ := hplace
  have hwritten := BlockDisk.written_of_writeToDisk hwrite
  obtain ⟨i, hi, hpos⟩ := connectBlock_positions he hconnect hk
  obtain ⟨rest, hrest⟩ := hwritten.drop hlater hk
  -- a file with more than `0x7F000000 - MAX_SIZE` bytes gets no further block
  have hlow : txOffset e.nBlockPos block k < 2 ^ 32 := by
    have hle := txOffset_le e.nBlockPos block k
    have hsize := hblock.size_le
    have hstart := hwritten.start
    have hroom := (BlockDisk.appendBlockFile_spec hwritten.chosen).2.2
    rw [maxSize] at hsize hroom
    omega
  refine ⟨i, txOffset e.nBlockPos block k, hi, hpos, ?_, ⟨rest, hrest⟩, ?_⟩
  · rw [nTxPositions_block hk, mod_eq_of_lt hlow]
  · rw [hpos]
    exact (BlockDisk.readFromDisk_eq_some_iff hwritten.number hrest).2
      (hblock.bounded.vtx.2 _ (getElem_mem hk))

/-- The block behind genesis is read back. -/
theorem positions_readFromDisk_genesis : ∃ D1 w' i,
    genesisDisk.writeToDisk (Vector.replicate 4 0xf9) (payingBlock 10000000) = some (D1, 1, 250) ∧
    connectBlock env (context false false) (payingBlock 10000000)
      (hash 2) (payingWorld 10000000) = .ok () w' ∧
    w'.txdb.readTxIndex (BitVec.ofNat 256 3) = some i ∧ i.pos.nTxPos = 331 ∧
    D1.readFromDisk usualSizeof i.pos = (payingBlock 10000000).vtx[0]? := by
  obtain ⟨D1, hwrite⟩ := genesisDisk_writes (Vector.replicate 4 0xf9)
    (payingBlock 10000000)
  obtain ⟨w', hconnect⟩ : ∃ w', connectBlock env (context false false)
      (payingBlock 10000000) (hash 2) (payingWorld 10000000) = .ok () w' := by
    have hok := (exactInput.accepted_iff rfl).2 (by decide)
    cases hrun : connectBlock env (context false false)
        (payingBlock 10000000) (hash 2) (payingWorld 10000000) with
    | ok u w' => exact ⟨w', rfl⟩
    | error s w' =>
      rw [hrun] at hok
      cases hok
  have hblock : (payingBlock 10000000).Receivable := by
    refine ⟨⟨⟨by decide, by decide, by decide, by decide⟩, ⟨by decide, ?_⟩, by decide⟩, by decide⟩
    rintro tx (_ | ⟨_, h⟩)
    · refine ⟨by decide, by decide, ⟨by decide, ?_⟩, ⟨by decide, ?_⟩, by decide⟩
      · rintro txin (_ | ⟨_, h⟩)
        · exact ⟨⟨by decide, by decide⟩, by decide⟩
        · cases h
      · rintro txout (_ | ⟨_, h⟩)
        · exact ⟨by decide, by decide⟩
        · cases h
    · cases h
  obtain ⟨i, n, hi, hpos, hn, -, hread⟩ := positions_readFromDisk usualSizeof hblock hwrite .refl
    rfl ⟨rfl, rfl⟩ hconnect (k := 0) (by decide)
  have hn' : n = 331 := (some.inj hn).symm.trans (by decide)
  exact ⟨D1, w', i, hwrite, hconnect, hi, by rw [hpos]; exact hn', hread⟩

end Espers
