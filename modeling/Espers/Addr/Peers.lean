import Espers.Addr.Manager
import Espers.Core.Codec

/-!
# The file of the address manager

`peers.dat` holds the new entries, the tried entries, and for each new bucket the numbers of its
entries among the new entries.  Everything else is reconstructed, and so is the new table when the
number of new buckets is another one.

* `CAddrMan.serialize` : what a program with `nBuckets` new buckets writes.
* `CAddrMan.unserialize` : what this program reads, into tables it empties first.
-/

namespace Espers

open Exec Wire

/-! ### What is written -/

/-- The serialization of a `CService`: the port is in network byte order. -/
def CService.serialize (addr : CService) : List UInt8 :=
    bytesBE 16 addr.ip.toNat ++ bytesBE 2 addr.port

/-- The serialization of a `CAddress` on disk. -/
def CAddress.serialize (nVersion : ℤ) (addr : CAddress) : List UInt8 :=
  writeInt 4 nVersion ++
    (bytesLE 4 addr.nTime ++ (bytesLE 8 addr.nServices ++ addr.toCService.serialize))

/-- The serialization of a `CAddrInfo`. -/
def CAddrInfo.serialize (nVersion : ℤ) (info : CAddrInfo) : List UInt8 :=
  info.toCAddress.serialize nVersion ++
    (bytesBE 16 info.source.toNat ++ (writeInt 8 info.nLastSuccess ++ writeInt 4 info.nAttempts))

namespace CAddrMan

/-- The first loop: the new entries, with `mapUnkIds`. -/
def writeNew (nVersion nNew : ℤ) : List (ℕ × CAddrInfo) → ℕ → Std.TreeMap ℕ ℕ →
    List UInt8 × Std.TreeMap ℕ ℕ
  | [], _, mapUnkIds => ([], mapUnkIds)
  | (n, info) :: entries, nIds, mapUnkIds =>
    -- this means nNew was wrong, oh ow
    if (nIds : ℤ) = nNew then ([], mapUnkIds)
    else if info.nRefCount ≠ 0 then
      let rest := writeNew nVersion nNew entries (nIds + 1) (mapUnkIds.insert n nIds)
      (info.serialize nVersion ++ rest.1, rest.2)
    else writeNew nVersion nNew entries nIds (mapUnkIds.insert n nIds)

/-- The second loop: the tried entries. -/
def writeTried (nVersion nTried : ℤ) : List (ℕ × CAddrInfo) → ℕ → List UInt8
  | [], _ => []
  | (_, info) :: entries, nIds =>
    -- this means nTried was wrong, oh ow
    if (nIds : ℤ) = nTried then []
    else if info.fInTried then info.serialize nVersion ++
      writeTried nVersion nTried entries (nIds + 1)
    else writeTried nVersion nTried entries nIds

/-- The third loop: a new bucket. -/
def writeBucket (mapUnkIds : Std.TreeMap ℕ ℕ) (vNew : List ℕ) : List UInt8 :=
  writeInt 4 vNew.length ++ vNew.flatMap fun n => bytesLE 4 (mapUnkIds[n]?.getD 0)

/-- The serialization, where `ADDRMAN_NEW_BUCKET_COUNT` is `nBuckets`. -/
def serialize (nBuckets : ℕ) (nVersion : ℤ) (nKey : List UInt8) (s : CAddrMan) : List UInt8 :=
  let news := writeNew nVersion s.nNew s.mapInfo.toList 0 ∅
  0 :: (writeVector nKey ++ (writeInt 4 s.nNew ++ (writeInt 4 s.nTried ++ (writeInt 4 nBuckets ++
    (news.1 ++ (writeTried nVersion s.nTried s.mapInfo.toList 0 ++
      s.vvNew.flatMap (writeBucket news.2)))))))

end CAddrMan

/-! ### What is read -/

/-- A `CService` is read. -/
def CService.unserialize : Reader CService := fun b => do
  let (ip, b) ← readWordBE 16 b
  let (port, b) ← readWordBE 2 b
  return (⟨.ofNat 128 ip, port⟩, b)

/-- A `CAddress` is read from disk: `nLastTry` is in memory only. -/
def CAddress.unserialize : Reader CAddress := fun b => do
  let (_, b) ← readInt 4 b
  let (nTime, b) ← readWord 4 b
  let (nServices, b) ← readWord 8 b
  let (addr, b) ← CService.unserialize b
  return (⟨addr, nServices, nTime, 0⟩, b)

/-- A `CAddrInfo()` is read. -/
def CAddrInfo.unserialize : Reader CAddrInfo := fun b => do
  let (addr, b) ← CAddress.unserialize b
  let (source, b) ← readWordBE 16 b
  let (nLastSuccess, b) ← readInt 8 b
  let (nAttempts, b) ← readInt 4 b
  return ({ CAddrInfo.init addr (.ofNat 128 source) with nLastSuccess := nLastSuccess, nAttempts :=
    nAttempts }, b)

namespace AddrMan

/-- The bytes that are left, and the address manager. -/
abbrev LoadM := EStateM Stop (List UInt8 × CAddrMan)

/-- `READWRITE`. -/
def readWrite {α : Type} (read : Reader α) : LoadM α := fun (b, s) =>
  match read b with
  | some (x, b) => .ok x (b, s)
  | none => .error (.exception "CDataStream::read() : end of data") (b, s)

/-- The tables change. -/
def modifyTables (f : CAddrMan → CAddrMan) : LoadM Unit := modify fun (b, s) => (b, f s)

/-- The tables. -/
def getTables : LoadM CAddrMan := do return (← get).2

/-- The entry `n` of the new entries: it gets into a bucket when the number of buckets is another
one. -/
def loadNew (E : AddrEnv) (nUBuckets : ℤ) (n : ℕ) (info : CAddrInfo) (s : CAddrMan) : CAddrMan :=
  let nRandomPos : ℤ := s.vRandom.length
  if nUBuckets ≠ newBucketCount then
    { s with
      mapInfo := s.mapInfo.insert n { info with nRandomPos := nRandomPos, nRefCount :=
        info.nRefCount + 1 }
      mapAddr := s.mapAddr.insert info.ip n
      vRandom := s.vRandom ++ [n]
      vvNew := s.vvNew.modify (getNewBucket E info info.source) (Inverted.insertSet (· ≤ ·) n) }
  else
    { s with
      mapInfo := s.mapInfo.insert n { info with nRandomPos := nRandomPos }
      mapAddr := s.mapAddr.insert info.ip n
      vRandom := s.vRandom ++ [n] }

/-- The loop over the new entries. -/
def readNew (E : AddrEnv) (nUBuckets : ℤ) : ℕ → ℕ → LoadM Unit
  | 0, _ => return ()
  | more + 1, n => do
    let info ← readWrite CAddrInfo.unserialize
    modifyTables (loadNew E nUBuckets n info)
    readNew E nUBuckets more (n + 1)

/-- The loop over the tried entries, with `nLost`. -/
def readTried (E : AddrEnv) : ℕ → ℕ → LoadM ℕ
  | 0, nLost => return nLost
  | more + 1, nLost => do
    let info ← readWrite CAddrInfo.unserialize
    let s ← getTables
    let nKBucket := getTriedBucket E info
    if (s.vvTried.getD nKBucket []).length < triedBucketSize then do
      modifyTables fun s => { s with
        vRandom := s.vRandom ++ [s.nIdCount]
        mapInfo := s.mapInfo.insert s.nIdCount { info with nRandomPos := s.vRandom.length, fInTried := true }
        mapAddr := s.mapAddr.insert info.ip s.nIdCount
        vvTried := s.vvTried.modify nKBucket fun vTried => vTried ++ [s.nIdCount]
        nIdCount := s.nIdCount + 1 }
      readTried E more nLost
    else readTried E more (nLost + 1)

/-- An entry that the file lists in a new bucket: `mapInfo[nIndex]` makes an entry where there is
none. -/
def loadIndex (nUBuckets : ℤ) (b nIndex : ℕ) (s : CAddrMan) : CAddrMan :=
  let info := s.mapInfo[nIndex]?.getD (.init .null 0)
  if nUBuckets = newBucketCount ∧ info.nRefCount < newBucketsPerAddress then
    { s with
      mapInfo := s.mapInfo.insert nIndex { info with nRefCount := info.nRefCount + 1 }
      vvNew := s.vvNew.modify b (Inverted.insertSet (· ≤ ·) nIndex) }
  else { s with mapInfo := s.mapInfo.insert nIndex info }

/-- The loop over the entries of a new bucket. -/
def readIndexes (nUBuckets : ℤ) (b : ℕ) : ℕ → LoadM Unit
  | 0 => return ()
  | more + 1 => do
    let nIndex ← readWrite (readWord 4)
    modifyTables (loadIndex nUBuckets b nIndex)
    readIndexes nUBuckets b more

/-- The loop over the new buckets of the file; there may be more of them than of this program. -/
def readBuckets (nUBuckets : ℤ) : ℕ → ℕ → LoadM Unit
  | 0, _ => return ()
  | more + 1, b => do
    let s ← getTables
    if b < s.vvNew.length then do
      let nSize ← readWrite (readInt 4)
      readIndexes nUBuckets b nSize.toNat
      readBuckets nUBuckets more (b + 1)
    else throw (.crash "am->vvNew[b]")

end AddrMan

open AddrMan in
/-- The unserialization, into `am`: the key of the file, which the hashes depend on. -/
def CAddrMan.unserialize (E : List UInt8 → AddrEnv) : LoadM (List UInt8) := do
  let _ ← readWrite (readBytes 1)
  let nKey ← readWrite readBytesVector
  let nNew ← readWrite (readInt 4)
  let nTried ← readWrite (readInt 4)
  let nUBuckets ← readWrite (readInt 4)
  modifyTables fun _ => { CAddrMan.empty with nNew := nNew, nTried := nTried }
  readNew (E nKey) nUBuckets nNew.toNat 0
  modifyTables fun s => { s with nIdCount := nNew.toNat }
  let nLost ← readTried (E nKey) nTried.toNat 0
  modifyTables fun s => { s with nTried := s.nTried - nLost }
  readBuckets nUBuckets nUBuckets.toNat 0
  return nKey

end Espers
