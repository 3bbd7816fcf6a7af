import Espers.Core.Transaction
import Espers.Lib.Inverted
import Std.Data.TreeSet.Basic

/-!
# The address manager

`CAddrMan` knows addresses of nodes.  An address is in a bucket of the **tried** table, or in up to
eight buckets of the **new** table, and every address is in a list in random order.

The operations read random numbers and the clock from an `Oracle`, which gives each reading a
number. What hashing gives and what floating point decides are parameters.  A failed assertion is a
crash.
-/

namespace Espers

open Exec

/-! ### Addresses -/

/-- The bytes of a `CNetAddr`. -/
abbrev CNetAddr := BitVec 128

/-- `CService`. -/
structure CService where
  ip : CNetAddr
  port : ℕ
  deriving DecidableEq

/-- `CAddress`. -/
structure CAddress extends CService where
  nServices : ℕ
  nTime : ℕ
  nLastTry : ℤ

/-- `CAddress()`. -/
def CAddress.null : CAddress := ⟨⟨0, 0⟩, 1, 100000000, 0⟩

/-- `CAddrInfo`. -/
structure CAddrInfo extends CAddress where
  /-- Where knowledge about this address first came from. -/
  source : CNetAddr
  nLastSuccess : ℤ
  nAttempts : ℤ
  /-- The number of new buckets. -/
  nRefCount : ℤ
  fInTried : Bool
  /-- The position in `vRandom`. -/
  nRandomPos : ℤ

/-- `CAddrInfo(addrIn, addrSource)`. -/
def CAddrInfo.init (addrIn : CAddress) (addrSource : CNetAddr) : CAddrInfo where
  toCAddress := { addrIn with nLastTry := 0 }
  source := addrSource
  nLastSuccess := 0
  nAttempts := 0
  nRefCount := 0
  fInTried := false
  nRandomPos := -1

/-- What the address manager depends on. -/
structure AddrEnv where
  /-- The hashes of `GetTriedBucket` and `GetNewBucket`. -/
  triedHash : CService → ℕ
  newHash : CNetAddr → CNetAddr → ℕ
  isRoutable : CNetAddr → Bool
  /-- The comparison of a random number with the weights of the tables, for `nTried`, `nNew` and
  `nUnkBias`. -/
  useTried : ℤ → ℤ → ℤ → ℕ → Bool
  /-- The comparison of a random number with the chance of an entry, after some failed
  comparisons. -/
  accepts : ℕ → CAddrInfo → ℤ → ℕ → Bool

/-- `ADDRMAN_TRIED_BUCKET_COUNT`, `ADDRMAN_TRIED_BUCKET_SIZE`, `ADDRMAN_NEW_BUCKET_COUNT` and
`ADDRMAN_NEW_BUCKET_SIZE`. -/
def triedBucketCount : ℕ := 256
def triedBucketSize : ℕ := 64
def newBucketCount : ℕ := 1024
def newBucketSize : ℕ := 64

/-- `ADDRMAN_NEW_BUCKETS_PER_ADDRESS`. -/
def newBucketsPerAddress : ℤ := 8

/-- `ADDRMAN_TRIED_ENTRIES_INSPECT_ON_EVICT`. -/
def triedEntriesInspectOnEvict : ℕ := 8

section Buckets

variable (E : AddrEnv)

/-- `GetTriedBucket`. -/
def getTriedBucket (info : CAddrInfo) : ℕ := E.triedHash info.toCService % triedBucketCount

/-- `GetNewBucket`. -/
def getNewBucket (info : CAddrInfo) (src : CNetAddr) : ℕ := E.newHash info.ip src % newBucketCount

end Buckets

/-- `IsTerrible`. -/
def CAddrInfo.isTerrible (info : CAddrInfo) (nNow : ℤ) : Bool :=
  -- never remove things tried the last minute
  if info.nLastTry ≠ 0 ∧ info.nLastTry ≥ nNow - 60 then false
  -- came in a flying DeLorean
  else if info.nTime > nNow + 10 * 60 then true
  -- not seen in recent history
  else if info.nTime = 0 ∨ nNow - info.nTime > 30 * 24 * 60 * 60 then true
  -- tried three times and never a success
  else if info.nLastSuccess = 0 ∧ info.nAttempts ≥ 3 then true
  -- ten successive failures in the last week
  else if nNow - info.nLastSuccess > 7 * 24 * 60 * 60 ∧ info.nAttempts ≥ 10 then true
  else false

/-- An `int64_t` as an `unsigned int`. -/
def toUnsignedTime (n : ℤ) : ℕ := (n % 2 ^ 32).toNat

/-- The update of an entry by an announcement of its address. -/
def CAddrInfo.announced (info : CAddrInfo) (addr : CAddress) (nNow nTimePenalty : ℤ) : CAddrInfo :=
  -- periodically update nTime
  let nUpdateInterval : ℤ := if nNow - addr.nTime < 24 * 60 * 60 then 60 * 60 else 24 * 60 * 60
  { info with
    nTime :=
      if addr.nTime ≠ 0 ∧
        (info.nTime = 0 ∨ (info.nTime : ℤ) < addr.nTime - nUpdateInterval - nTimePenalty) then
        toUnsignedTime (max 0 (addr.nTime - nTimePenalty))
      else info.nTime
    nServices := info.nServices ||| addr.nServices }

/-! ### Tables -/

/-- `CAddrMan`. -/
structure CAddrMan where
  nIdCount : ℕ
  mapInfo : Std.TreeMap ℕ CAddrInfo
  mapAddr : Std.TreeMap CNetAddr ℕ
  vRandom : List ℕ
  nTried : ℤ
  vvTried : List (List ℕ)
  nNew : ℤ
  vvNew : List (List ℕ)

/-- `CAddrMan()`. -/
def CAddrMan.empty : CAddrMan where
  nIdCount := 0
  mapInfo := ∅
  mapAddr := ∅
  vRandom := []
  nTried := 0
  vvTried := List.replicate triedBucketCount []
  nNew := 0
  vvNew := List.replicate newBucketCount []

/-- The random numbers and the times that an operation reads, by the number of the reading. -/
structure Oracle where
  rand : ℕ → ℕ
  now : ℕ → ℤ

/-- `GetRandInt`. -/
def getRandInt (draw nMax : ℕ) : ℕ := if nMax = 0 then 0 else draw % nMax

/-- An `int` as an `unsigned int`. -/
def toUnsigned (n : ℤ) : ℕ := if 0 ≤ n then n.toNat else (n + 2 ^ 32).toNat

namespace AddrMan

abbrev AddrM := EStateM Stop CAddrMan

/-- `assert(c)`. -/
def assertThat (c : Bool) (text : String) : AddrM Unit := if c then pure () else throw (.crash text)

/-- `mapInfo[nId]`, which makes an entry where there is none. -/
def infoAt (nId : ℕ) : AddrM CAddrInfo := do
  let s ← get
  match s.mapInfo[nId]? with
  | some info => return info
  | none => do
    set { s with mapInfo := s.mapInfo.insert nId (.init .null 0) }
    return .init .null 0

/-- An entry is changed in place. -/
def updateInfo (nId : ℕ) (f : CAddrInfo → CAddrInfo) : AddrM Unit :=
  modify fun s => { s with mapInfo := s.mapInfo.modify nId f }

/-- `Find`. -/
def find (addr : CNetAddr) : AddrM (Option (ℕ × CAddrInfo)) := do
  let s ← get
  return s.mapAddr[addr]?.bind fun nId => s.mapInfo[nId]?.map fun info => (nId, info)

/-- `Create`. -/
def create (addr : CAddress) (addrSource : CNetAddr) : AddrM ℕ := do
  let s ← get
  set { s with
    nIdCount := s.nIdCount + 1
    mapInfo := s.mapInfo.insert s.nIdCount { CAddrInfo.init addr addrSource with nRandomPos :=
      s.vRandom.length }
    mapAddr := s.mapAddr.insert addr.ip s.nIdCount
    vRandom := s.vRandom ++ [s.nIdCount] }
  return s.nIdCount

/-- `SwapRandom`. -/
def swapRandom (nRndPos1 nRndPos2 : ℕ) : AddrM Unit := do
  if nRndPos1 = nRndPos2 then return ()
  else do
    let s ← get
    match s.vRandom[nRndPos1]?, s.vRandom[nRndPos2]? with
    | some nId1, some nId2 => do
      assertThat (s.mapInfo.contains nId1) "assert(mapInfo.count(nId1) == 1)"
      assertThat (s.mapInfo.contains nId2) "assert(mapInfo.count(nId2) == 1)"
      set { s with
        mapInfo := (s.mapInfo.modify nId1 fun info => { info with nRandomPos := nRndPos2 }).modify
          nId2 fun info => { info with nRandomPos := nRndPos1 }
        vRandom := (s.vRandom.set nRndPos1 nId2).set nRndPos2 nId1 }
    | _, _ => throw (.crash "assert(nRndPos1 < vRandom.size() && nRndPos2 < vRandom.size())")

/-! ### Evictions -/

/-- The loop of `SelectTried`, with `nOldest` and `nOldestPos`. -/
def selectTriedLoop (o : Oracle) (nKBucket : ℕ) : ℕ → ℕ → Option (ℕ × ℕ) → AddrM (Option (ℕ × ℕ))
  | 0, _, oldest => return oldest
  | more + 1, i, oldest => do
    let vTried := (← get).vvTried.getD nKBucket []
    if i < vTried.length then do
      let nPos := getRandInt (o.rand (i + 1)) (vTried.length - i) + i
      let nTemp := vTried.getD nPos 0
      modify fun s => { s with
        vvTried := s.vvTried.set nKBucket ((vTried.set nPos (vTried.getD i 0)).set i nTemp) }
      match oldest with
      | none => selectTriedLoop o nKBucket more (i + 1) (some (nTemp, nPos))
      | some (nOldest, nOldestPos) => do
        assertThat ((← get).mapInfo.contains nTemp)
          "assert(nOldest == -1 || mapInfo.count(nTemp) == 1)"
        let info ← infoAt nTemp
        let infoOldest ← infoAt nOldest
        selectTriedLoop o nKBucket more (i + 1)
          (if info.nLastSuccess < infoOldest.nLastSuccess then some (nTemp, nPos) else
          some (nOldest, nOldestPos))
    else return oldest

/-- `SelectTried`: `nOldestPos`. -/
def selectTried (o : Oracle) (nKBucket : ℕ) : AddrM (Option ℕ) := do
  let oldest ← selectTriedLoop o nKBucket triedEntriesInspectOnEvict 0 none
  return oldest.map Prod.snd

/-- The end of an entry that no bucket refers to. -/
def deleteUnreferenced (nId : ℕ) : AddrM Unit := do
  let info ← infoAt nId
  if info.nRefCount = 0 then do
    swapRandom (toUnsigned info.nRandomPos) (toUnsigned ((← get).vRandom.length - 1))
    modify fun s => { s with
      vRandom := s.vRandom.dropLast
      mapAddr := s.mapAddr.erase info.ip
      mapInfo := s.mapInfo.erase nId
      nNew := s.nNew - 1 }
  else return ()

/-- What `ShrinkNew` does with the entry it chose, in both of its branches. -/
def release (nUBucket nId : ℕ) : AddrM Unit := do
  updateInfo nId fun info => { info with nRefCount := info.nRefCount - 1 }
  deleteUnreferenced nId
  modify fun s => { s with vvNew := s.vvNew.modify nUBucket fun vNew => vNew.erase nId }

/-- The first loop of `ShrinkNew`: the first entry that is terrible. -/
def findTerrible (o : Oracle) : List ℕ → ℕ → AddrM (Option ℕ)
  | [], _ => return none
  | nId :: vNew, k => do
    assertThat ((← get).mapInfo.contains nId) "assert(mapInfo.count(*it))"
    let info ← infoAt nId
    if info.isTerrible (o.now k) then return some nId else findTerrible o vNew (k + 1)

/-- The second loop of `ShrinkNew`: the oldest of the entries at the positions `n`. -/
def findOldest (n : List ℕ) : List ℕ → ℕ → Option ℕ → AddrM (Option ℕ)
  | [], _, oldest => return oldest
  | nId :: vNew, nI, oldest =>
    if n.contains nI then
      match oldest with
      | none => findOldest n vNew (nI + 1) (some nId)
      | some nOldest => do
        assertThat ((← get).mapInfo.contains nId) "assert(nOldest == -1 || mapInfo.count(*it) == 1)"
        let info ← infoAt nId
        let infoOldest ← infoAt nOldest
        findOldest n vNew (nI + 1)
          (if info.nTime < infoOldest.nTime then some nId else some nOldest)
    else findOldest n vNew (nI + 1) oldest

/-- `ShrinkNew`. -/
def shrinkNew (o : Oracle) (nUBucket : ℕ) : AddrM ℤ := do
  let s ← get
  match s.vvNew[nUBucket]? with
  | none => throw (.crash "assert(nUBucket >= 0 && (unsigned int)nUBucket < vvNew.size())")
  | some vNew => do
    match ← findTerrible o vNew 1 with
    | some nId => do
      release nUBucket nId
      return 0
    | none => do
      -- select four randomly, and pick the oldest of those to replace
      let n := [1, 2, 3, 4].map fun k => getRandInt (o.rand k) vNew.length
      match ← findOldest n vNew 0 none with
      | none => throw (.crash "assert(mapInfo.count(nOldest) == 1)")
      | some nOldest => do
        assertThat ((← get).mapInfo.contains nOldest) "assert(mapInfo.count(nOldest) == 1)"
        release nUBucket nOldest
        return 1

/-- The end of `MakeTried`, when the bucket is full: an item moves back to a new bucket. -/
def evictTried (E : AddrEnv) (o : Oracle) (nKBucket nId nOrigin : ℕ) : AddrM Unit := do
  match ← selectTried o nKBucket with
  | none => throw (.crash "vTried[-1]")
  | some nPos => do
    match ((← get).vvTried.getD nKBucket [])[nPos]? with
    | none => throw (.crash "vTried[nPos]")
    | some nIdOld => do
      assertThat ((← get).mapInfo.contains nIdOld) "assert(mapInfo.count(vTried[nPos]) == 1)"
      -- find which new bucket it belongs to
      let infoOld ← infoAt nIdOld
      let nUBucket := getNewBucket E infoOld infoOld.source
      updateInfo nIdOld fun info => { info with fInTried := false, nRefCount := 1 }
      modify fun s =>
        -- when it is full, the bucket that nId came from (there is certainly place there)
        let nBucket := if (s.vvNew.getD nUBucket []).length < newBucketSize then
          nUBucket else nOrigin
        { s with
          vvNew := s.vvNew.modify nBucket (Inverted.insertSet (· ≤ ·) nIdOld)
          nNew := s.nNew + 1
          vvTried := s.vvTried.modify nKBucket fun vTried => vTried.set nPos nId }
      updateInfo nId fun info => { info with fInTried := true }

/-- `MakeTried`. -/
def makeTried (E : AddrEnv) (o : Oracle) (nId nOrigin : ℕ) : AddrM Unit := do
  assertThat (((← get).vvNew.getD nOrigin []).contains nId) "assert(vvNew[nOrigin].count(nId) == 1)"
  -- remove the entry from all new buckets
  modify fun s => { s with
    mapInfo := s.mapInfo.modify nId fun info =>
      { info with nRefCount := info.nRefCount - (s.vvNew.countP fun vNew => vNew.contains nId) }
    vvNew := s.vvNew.map fun vNew => vNew.erase nId
    nNew := s.nNew - 1 }
  let info ← infoAt nId
  assertThat (info.nRefCount == 0) "assert(info.nRefCount == 0)"
  let nKBucket := getTriedBucket E info
  if ((← get).vvTried.getD nKBucket []).length < triedBucketSize then
    modify fun s => { s with
      vvTried := s.vvTried.modify nKBucket fun vTried => vTried ++ [nId]
      nTried := s.nTried + 1
      mapInfo := s.mapInfo.modify nId fun info => { info with fInTried := true } }
  else evictTried E o nKBucket nId nOrigin

/-! ### Operations -/

/-- The search of `Good_` for a bucket, from a random one on. -/
def findBucket (nRnd nId : ℕ) (vvNew : List (List ℕ)) : Option ℕ :=
  ((List.range vvNew.length).map fun n => (n + nRnd) % vvNew.length).find? fun nB =>
    (vvNew.getD nB []).contains nId

/-- `Good_`. -/
def good (E : AddrEnv) (o : Oracle) (addr : CService) (nTime : ℤ) : AddrM Unit := do
  match ← find addr.ip with
  | none => return ()
  | some (nId, info) =>
    -- check whether we are talking about the exact same CService (including same port)
    if info.toCService ≠ addr then return ()
    else do
      updateInfo nId fun info =>
        { info with nLastSuccess := nTime, nLastTry := nTime, nTime :=
          toUnsignedTime nTime, nAttempts := 0 }
      if info.fInTried then return ()
      else do
        let s ← get
        match findBucket (getRandInt (o.rand 0) s.vvNew.length) nId s.vvNew with
        -- if no bucket is found, something bad happened
        | none => return ()
        | some nUBucket => makeTried E o nId nUBucket

/-- The end of `Add_`: an entry gets into a new bucket. -/
def addToNew (E : AddrEnv) (o : Oracle) (nId : ℕ) (source : CNetAddr) : AddrM Unit := do
  let info ← infoAt nId
  let nUBucket := getNewBucket E info source
  let vNew := (← get).vvNew.getD nUBucket []
  if vNew.contains nId then return ()
  else do
    updateInfo nId fun info => { info with nRefCount := info.nRefCount + 1 }
    if vNew.length = newBucketSize then do
      let _ ← shrinkNew o nUBucket
      modify fun s => { s with vvNew := s.vvNew.modify nUBucket (Inverted.insertSet (· ≤ ·) nId) }
    else modify fun s =>
      { s with vvNew := s.vvNew.modify nUBucket (Inverted.insertSet (· ≤ ·) nId) }

/-- `Add_`. -/
def add (E : AddrEnv) (o : Oracle) (addr : CAddress) (source : CNetAddr) (nTimePenalty : ℤ) :
    AddrM Bool := do
  if !E.isRoutable addr.ip then return false
  else if addr.port = 0 then return false
  else
    match ← find addr.ip with
    | some (nId, _) => do
      updateInfo nId fun info => CAddrInfo.announced info addr (o.now 0) nTimePenalty
      let info ← infoAt nId
      -- do not update if no new information is present
      if addr.nTime = 0 ∨ info.nTime ≠ 0 ∧ addr.nTime ≤ info.nTime then return false
      else if info.fInTried then return false
      else if info.nRefCount = newBucketsPerAddress then return false
      -- stochastic test: previous nRefCount == N: 2^N times harder to increase it
      else if 2 ^ info.nRefCount.toNat > 1 ∧ getRandInt (o.rand 0) (2 ^ info.nRefCount.toNat) ≠
        0 then return false
      else do
        addToNew E o nId source
        return false
    | none => do
      let nId ← create addr source
      updateInfo nId fun info =>
        { info with nTime := toUnsignedTime (max 0 (info.nTime - nTimePenalty)) }
      modify fun s => { s with nNew := s.nNew + 1 }
      addToNew E o nId source
      return true

/-- `Attempt_`. -/
def attempt (addr : CService) (nTime : ℤ) : AddrM Unit := do
  match ← find addr.ip with
  | none => return ()
  | some (nId, info) =>
    if info.toCService ≠ addr then return ()
    else updateInfo nId fun info => { info with nLastTry := nTime, nAttempts := info.nAttempts + 1 }

/-- `Connected_`. -/
def connected (addr : CService) (nTime : ℤ) : AddrM Unit := do
  match ← find addr.ip with
  | none => return ()
  | some (nId, info) =>
    if info.toCService ≠ addr then return ()
    else if nTime - info.nTime > 20 * 60 then updateInfo nId fun info =>
      { info with nTime := toUnsignedTime nTime }
    else return ()

/-- The loop of `Select_` over random entries of a table, up to a number of draws. -/
def selectLoop (E : AddrEnv) (o : Oracle) (vv : List (List ℕ)) : ℕ → ℕ → ℕ → AddrM (Option CAddress)
  | 0, _, _ => return none
  | more + 1, k, failed =>
    let bucket := vv.getD (getRandInt (o.rand k) vv.length) []
    if bucket.length = 0 then selectLoop E o vv more (k + 1) failed
    else
      match bucket[getRandInt (o.rand (k + 1)) bucket.length]? with
      | none => throw (.crash "vTried[nPos]")
      | some nId => do
        assertThat ((← get).mapInfo.contains nId) "assert(mapInfo.count(vTried[nPos]) == 1)"
        let info ← infoAt nId
        if E.accepts failed info (o.now k) (o.rand (k + 2) % 2 ^ 30) then
          return some info.toCAddress
        else selectLoop E o vv more (k + 3) (failed + 1)

/-- `Select_`, up to a number of draws. -/
def select (E : AddrEnv) (o : Oracle) (draws : ℕ) (nUnkBias : ℤ) : AddrM (Option CAddress) := do
  let s ← get
  if s.vRandom.length = 0 then return some .null
  else if E.useTried s.nTried s.nNew nUnkBias (o.rand 0 % 2 ^ 30) then
    selectLoop E o s.vvTried draws 1 0
  else selectLoop E o s.vvNew draws 1 0

/-- The loop of `GetAddr_`, over positions of the list in random order. -/
def getAddrLoop (o : Oracle) : List ℕ → AddrM (List CAddress)
  | [] => return []
  | n :: positions => do
    let size := (← get).vRandom.length
    swapRandom n (getRandInt (o.rand n) (size - n) + n)
    match (← get).vRandom[n]? with
    | none => throw (.crash "vRandom[n]")
    | some nId => do
      assertThat ((← get).mapInfo.contains nId) "assert(mapInfo.count(vRandom[n]) == 1)"
      let info ← infoAt nId
      let vAddr ← getAddrLoop o positions
      return info.toCAddress :: vAddr

/-- `GetAddr_`: a shuffle of the first positions, at most 2500 and 23 percent. -/
def getAddr (o : Oracle) : AddrM (List CAddress) := do
  let s ← get
  getAddrLoop o (List.range (min (23 * s.vRandom.length / 100) 2500))

/-! ### The consistency check -/

/-- `setTried` and `mapNew` of `Check_`. -/
abbrev Tallies := Std.TreeSet ℕ × Std.TreeMap ℕ ℤ

/-- What `Check_` asks of an entry. -/
def checkEntry (s : CAddrMan) (n : ℕ) (info : CAddrInfo) (t : Tallies) : Except ℤ Tallies := do
  let t ←
    if info.fInTried then
      if info.nLastSuccess = 0 then .error (-1)
      else if info.nRefCount ≠ 0 then .error (-2)
      else .ok (t.1.insert n, t.2)
    else if info.nRefCount < 0 ∨ info.nRefCount > newBucketsPerAddress then .error (-3)
    else if info.nRefCount = 0 then .error (-4)
    else .ok (t.1, t.2.insert n info.nRefCount)
  rejectIf (s.mapAddr[info.ip]?.getD 0 ≠ n) (-5)
  rejectIf (info.nRandomPos < 0 ∨ info.nRandomPos ≥ s.vRandom.length ∨
    s.vRandom[info.nRandomPos.toNat]? ≠ some n) (-14)
  rejectIf (info.nLastTry < 0) (-6)
  rejectIf (info.nLastSuccess < 0) (-8)
  return t

/-- The loop over the tried buckets: every id in turn leaves the set. -/
def checkTried : List ℕ → Std.TreeSet ℕ → Except ℤ (Std.TreeSet ℕ)
  | [], setTried => .ok setTried
  | n :: ids, setTried =>
    if setTried.contains n then checkTried ids (setTried.erase n) else .error (-11)

/-- The loop over the new buckets: every id in turn is counted down. -/
def checkNew : List ℕ → Std.TreeMap ℕ ℤ → Except ℤ (Std.TreeMap ℕ ℤ)
  | [], mapNew => .ok mapNew
  | n :: ids, mapNew =>
    match mapNew[n]? with
    | none => .error (-12)
    | some count =>
      checkNew ids (if count - 1 = 0 then mapNew.erase n else mapNew.insert n (count - 1))

/-- `Check_`: 0, or the number of what fails. -/
def check (s : CAddrMan) : ℤ :=
  let run : Except ℤ Unit := do
    rejectIf ((s.vRandom.length : ℤ) ≠ s.nTried + s.nNew) (-7)
    let (setTried, mapNew) ← s.mapInfo.toList.foldlM (fun t entry => checkEntry s entry.1 entry.2 t)
      (∅, ∅)
    rejectIf ((setTried.size : ℤ) ≠ s.nTried) (-9)
    rejectIf ((mapNew.size : ℤ) ≠ s.nNew) (-10)
    let setTried ← checkTried s.vvTried.flatten setTried
    let mapNew ← checkNew s.vvNew.flatten mapNew
    rejectIf (setTried.size ≠ 0) (-13)
    rejectIf (mapNew.size ≠ 0) (-15)
  match run with
  | .ok _ => 0
  | .error code => code

end AddrMan

end Espers
