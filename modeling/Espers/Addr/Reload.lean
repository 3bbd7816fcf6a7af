import Espers.Addr.Consistency
import Espers.Addr.Peers

/-!
# Reading back the file of the address manager

* `CAddrInfo.unserialize_serialize` : an entry is read as it was written, but for what is in memory
  only.
* `CAddrMan.serialize_eq` : the file of consistent books, with the entries in the order of their
  ids.
* `Numbered all t` : the tables hold the entries `all`, with their positions as ids.
-/

namespace Espers

open Exec Wire Buckets AddrMan List Nat
open Option (bind_eq_bind bind_some getD_some map_some)

/-! ### Entries -/

/-- The integers of an entry fit. -/
structure CAddrInfo.Fits (info : CAddrInfo) : Prop where
  port : info.port < 2 ^ 16
  nServices : info.nServices < 2 ^ 64
  nTime : info.nTime < 2 ^ 32
  nLastSuccess : -2 ^ 63 ≤ info.nLastSuccess ∧ info.nLastSuccess < 2 ^ 63
  nAttempts : -2 ^ 31 ≤ info.nAttempts ∧ info.nAttempts < 2 ^ 31

/-- What is in memory only is as in a new entry. -/
def CAddrInfo.stored (info : CAddrInfo) : CAddrInfo :=
  { info with nLastTry := 0, nRefCount := 0, fInTried := false, nRandomPos := -1 }

theorem CService.unserialize_serialize {addr : CService} (h : addr.port < 2 ^ 16) (r : List UInt8) :
    CService.unserialize (addr.serialize ++ r) = some (addr, r) := by
  unfold CService.unserialize CService.serialize
  rw [append_assoc, (reads_wordBE 16).write_append addr.ip.isLt]
  simp only [bind_eq_bind, bind_some]
  rw [(reads_wordBE 2).write_append h]
  simp

theorem CAddress.unserialize_serialize {addr : CAddress} {nVersion : ℤ} (hport : addr.port < 2 ^ 16)
    (hservices : addr.nServices < 2 ^ 64) (htime : addr.nTime < 2 ^ 32)
    (hversion : -2 ^ 31 ≤ nVersion ∧ nVersion < 2 ^ 31) (r : List UInt8) :
    CAddress.unserialize (addr.serialize nVersion ++ r) =
    some ({ addr with nLastTry := 0 }, r) := by
  unfold CAddress.unserialize CAddress.serialize
  simp only [append_assoc, bind_eq_bind]
  rw [reads_int4.write_append hversion, bind_some, (reads_word 4).write_append htime,
    bind_some, (reads_word 8).write_append hservices, bind_some,
    CService.unserialize_serialize hport]
  rfl

theorem CAddrInfo.unserialize_serialize {info : CAddrInfo} {nVersion : ℤ} (h : info.Fits)
    (hversion : -2 ^ 31 ≤ nVersion ∧ nVersion < 2 ^ 31) (r : List UInt8) :
    CAddrInfo.unserialize (info.serialize nVersion ++ r) = some (info.stored, r) := by
  unfold CAddrInfo.unserialize CAddrInfo.serialize
  simp only [append_assoc, bind_eq_bind]
  rw [CAddress.unserialize_serialize h.port h.nServices h.nTime hversion, bind_some,
    (reads_wordBE 16).write_append info.source.isLt, bind_some,
    (reads_int 8).write_append ⟨by have := h.nLastSuccess; omega, by have := h.nLastSuccess; omega⟩,
    bind_some, reads_int4.write_append h.nAttempts]
  simp [CAddrInfo.init, CAddrInfo.stored]

/-! ### The file -/

namespace CAddrMan

variable {s : CAddrMan} {nVersion : ℤ} {n : ℕ} {info : CAddrInfo} {nBuckets : ℕ} {nKey : List UInt8}

/-- The new entries and the tried entries, in the order of their ids. -/
def newEntries (s : CAddrMan) : List (ℕ × CAddrInfo) := s.mapInfo.toList.filter (!·.2.fInTried)

def triedEntries (s : CAddrMan) : List (ℕ × CAddrInfo) := s.mapInfo.toList.filter (·.2.fInTried)

theorem mem_newEntries : (n, info) ∈ s.newEntries ↔ s.mapInfo[n]? = some info ∧
    info.fInTried = false := by
  simp [newEntries]

theorem mem_triedEntries : (n, info) ∈ s.triedEntries ↔ s.mapInfo[n]? = some info ∧
    info.fInTried = true := by
  simp [triedEntries]

/-- The first loop, when `nNew` is right: the entries with references, numbered from `nIds` on. -/
theorem writeNew_eq (nVersion nNew : ℤ) {entries : List (ℕ × CAddrInfo)} (nIds : ℕ)
    (mapUnkIds : Std.TreeMap ℕ ℕ) (hnodup : (entries.map Prod.fst).Nodup)
    (hcount : (nIds + entries.countP (·.2.nRefCount ≠ 0) : ℤ) = nNew) :
    (writeNew nVersion nNew entries nIds mapUnkIds).1 =
        (entries.filter (·.2.nRefCount ≠ 0)).flatMap (·.2.serialize nVersion) ∧
      (∀ (k n : ℕ), ((entries.filter (·.2.nRefCount ≠ 0)).map Prod.fst)[k]? = some n →
        (writeNew nVersion nNew entries nIds mapUnkIds).2[n]? = some (nIds + k)) ∧
      ∀ n ∉ entries.map Prod.fst, (writeNew nVersion nNew entries nIds mapUnkIds).2[n]? =
        mapUnkIds[n]? := by
  induction entries generalizing nIds mapUnkIds with
  | nil =>
    refine ⟨rfl, fun k n h => ?_, fun n _ => rfl⟩
    cases h
  | cons e entries ih =>
    obtain ⟨m, info⟩ := e
    rw [map_cons, nodup_cons] at hnodup
    obtain ⟨hm, hnodup'⟩ := hnodup
    rw [writeNew]
    split_ifs with hbreak hrefs
    · -- all entries with references are written
      have hzero : ((m, info) :: entries).countP (·.2.nRefCount ≠ 0) = 0 := by omega
      rw [countP_eq_length_filter, length_eq_zero_iff] at hzero
      rw [hzero]
      refine ⟨rfl, fun k n h => ?_, fun n _ => rfl⟩
      cases h
    · rw [countP_cons_of_pos (by simpa using hrefs)] at hcount
      obtain ⟨hbytes, hids, hother⟩ := ih (nIds + 1) (mapUnkIds.insert m nIds) hnodup'
        (by push_cast at hcount ⊢; omega)
      rw [filter_cons_of_pos (by simpa using hrefs)]
      dsimp only
      refine ⟨?_, fun k n hk => ?_, fun n hn => ?_⟩
      · rw [flatMap_cons, hbytes]
      · cases k with
        | zero =>
          cases hk
          rw [hother m hm, Std.TreeMap.getElem?_insert_self, add_zero]
        | succ k =>
          rw [hids k n hk, add_assoc, add_comm 1 k]
      · rw [map_cons, mem_cons, not_or] at hn
        rw [hother n hn.2, Std.TreeMap.getElem?_insert, if_neg]
        rw [Std.compare_eq_iff_eq]
        exact fun heq => hn.1 heq.symm
    · rw [countP_cons_of_neg (by simpa using hrefs)] at hcount
      obtain ⟨hbytes, hids, hother⟩ := ih nIds (mapUnkIds.insert m nIds) hnodup' hcount
      rw [filter_cons_of_neg (by simpa using hrefs)]
      refine ⟨hbytes, hids, fun n hn => ?_⟩
      rw [map_cons, mem_cons, not_or] at hn
      rw [hother n hn.2, Std.TreeMap.getElem?_insert, if_neg]
      rw [Std.compare_eq_iff_eq]
      exact fun heq => hn.1 heq.symm

/-- The second loop, when `nTried` is right. -/
theorem writeTried_eq (nVersion nTried : ℤ) (entries : List (ℕ × CAddrInfo)) (nIds : ℕ)
    (hcount : (nIds + entries.countP (·.2.fInTried) : ℤ) = nTried) :
    writeTried nVersion nTried entries nIds = (entries.filter (·.2.fInTried)).flatMap
    (·.2.serialize nVersion) := by
  induction entries generalizing nIds with
  | nil => rfl
  | cons e entries ih =>
    obtain ⟨m, info⟩ := e
    rw [writeTried]
    split_ifs with hbreak htried
    · have hzero : ((m, info) :: entries).countP (·.2.fInTried) = 0 := by omega
      rw [countP_eq_length_filter, length_eq_zero_iff] at hzero
      rw [hzero]
      rfl
    · rw [countP_cons_of_pos (by simpa using htried)] at hcount
      rw [filter_cons_of_pos (by simpa using htried), flatMap_cons, ih (nIds + 1)
        (by push_cast at hcount ⊢; omega)]
    · rw [countP_cons_of_neg (by simpa using htried)] at hcount
      rw [filter_cons_of_neg (by simpa using htried), ih nIds hcount]

/-- The number of a new entry in the file. -/
def newIndex (s : CAddrMan) (n : ℕ) : ℕ := (s.newEntries.map Prod.fst).idxOf n

/-- A bucket as the numbers of its entries in the file. -/
def indexBucket (s : CAddrMan) (vNew : List ℕ) : List UInt8 :=
  writeInt 4 vNew.length ++ (vNew.map s.newIndex).flatMap (bytesLE 4)

theorem nRefCount_ne_zero (h : Consistent nBuckets s) (hinfo : s.mapInfo[n]? = some info) :
    info.nRefCount ≠ 0 ↔ info.fInTried = false := by
  cases htried : info.fInTried with
  | true => simp [(h.tried n info hinfo htried).2.1]
  | false =>
    have := (h.new n info hinfo htried).1
    simp only [iff_true]
    omega

theorem mem_newIds (h : Consistent nBuckets s) {vNew : List ℕ} (hmem : vNew ∈ s.vvNew)
    (hn : n ∈ vNew) : n ∈ s.newEntries.map Prod.fst := by
  obtain ⟨info, hinfo⟩ := h.known vNew (mem_append_right _ hmem) n hn
  refine mem_map.mpr ⟨(n, info), mem_newEntries.mpr ⟨hinfo, ?_⟩, rfl⟩
  by_contra htried
  exact (h.tried n info hinfo (by simpa using htried)).2.2.2 vNew hmem hn

/-- **The file of consistent books.** -/
theorem serialize_eq (h : Consistent nBuckets s) : s.serialize nBuckets nVersion nKey =
    0 :: (writeVector nKey ++ (writeInt 4 s.nNew ++ (writeInt 4 s.nTried ++ (writeInt 4 nBuckets ++
      (s.newEntries.flatMap (·.2.serialize nVersion) ++
      (s.triedEntries.flatMap (·.2.serialize nVersion) ++ s.vvNew.flatMap s.indexBucket)))))) := by
  have hfilter : s.mapInfo.toList.filter (·.2.nRefCount ≠ 0) = s.newEntries := by
    refine filter_congr fun e hmem => ?_
    have hrefs := nRefCount_ne_zero h (Std.TreeMap.mem_toList_iff_getElem?_eq_some.mp hmem)
    rw [Bool.eq_iff_iff, decide_eq_true_eq, hrefs, Bool.not_eq_true']
  have hcountP : s.mapInfo.toList.countP (·.2.nRefCount ≠ 0) =
    s.mapInfo.toList.countP (!·.2.fInTried) := by
    rw [countP_eq_length_filter, hfilter, countP_eq_length_filter]
    rfl
  obtain ⟨hbytes, hids, -⟩ := writeNew_eq nVersion s.nNew 0 ∅ s.nodup_ids
    (by rw [hcountP, ← h.nNew]; simp)
  rw [hfilter] at hbytes hids
  have hbuckets : s.vvNew.flatMap (writeBucket (writeNew nVersion s.nNew s.mapInfo.toList 0 ∅).2) =
      s.vvNew.flatMap s.indexBucket := by
    refine flatMap_congr fun vNew hmem => ?_
    unfold writeBucket indexBucket
    rw [flatMap_map]
    congr 1
    refine flatMap_congr fun n hn => ?_
    have hlt := idxOf_lt_length_of_mem (mem_newIds h hmem hn)
    have hget : (s.newEntries.map Prod.fst)[s.newIndex n]? = some n := by
      rw [newIndex, getElem?_eq_getElem hlt, getElem_idxOf]
    rw [hids _ n hget, zero_add]
    rfl
  have htried := writeTried_eq nVersion s.nTried s.mapInfo.toList 0
    (by rw [← h.nTried]; simp)
  unfold serialize
  simp only [hbytes, htried, hbuckets]
  rfl

end CAddrMan

/-! ### Entries with positions as ids -/

/-- The tables hold the entries, with their positions as ids. -/
structure Numbered (all : List CAddrInfo) (t : CAddrMan) : Prop where
  info : ∀ i : ℕ, t.mapInfo[i]? = all[i]?
  addr : ∀ (a : CNetAddr) (i : ℕ), t.mapAddr[a]? = some i ↔ (all.map (·.ip))[i]? = some a
  random : t.vRandom = List.range all.length
  position : ∀ (i : ℕ) (x : CAddrInfo), all[i]? = some x → x.nRandomPos = i

namespace Numbered

variable {all : List CAddrInfo} {t t' : CAddrMan} {x : CAddrInfo}

theorem nil (hinfo : t.mapInfo = ∅) (haddr : t.mapAddr = ∅) (hrandom : t.vRandom = []) :
    Numbered [] t where
  info i := by simp [hinfo]
  addr a i := by simp [haddr]
  random := hrandom
  position i x h := by cases h

/-- One more entry, with an address of its own. -/
theorem concat (h : Numbered all t) (hip : x.ip ∉ all.map (·.ip)) (hpos : x.nRandomPos = all.length)
    (hinfo : t'.mapInfo = t.mapInfo.insert all.length x)
    (haddr : t'.mapAddr = t.mapAddr.insert x.ip all.length)
    (hrandom : t'.vRandom = t.vRandom ++ [all.length]) : Numbered (all ++ [x]) t' where
  info i := by
    rw [hinfo, Std.TreeMap.getElem?_insert, h.info]
    simp only [Std.compare_eq_iff_eq]
    split_ifs with hi
    · subst hi
      simp
    · by_cases hlt : i < all.length
      · rw [getElem?_append_left hlt]
      · rw [getElem?_eq_none (by omega),
          getElem?_eq_none (by rw [length_append, length_singleton]; omega)]
  addr a i := by
    rw [haddr, Std.TreeMap.getElem?_insert, map_append]
    simp only [Std.compare_eq_iff_eq]
    split_ifs with ha
    · subst ha
      rw [Option.some.injEq]
      constructor
      · rintro rfl
        rw [getElem?_append_right (by simp)]
        simp
      · intro hi
        by_cases hlt : i < (all.map (·.ip)).length
        · rw [getElem?_append_left hlt] at hi
          exact absurd (mem_of_getElem? hi) hip
        · have hbound := (List.getElem?_eq_some_iff.mp hi).1
          simp only [length_append, length_map, map_cons, map_nil, length_singleton] at hbound hlt
          omega
    · rw [h.addr]
      by_cases hlt : i < (all.map (·.ip)).length
      · rw [getElem?_append_left hlt]
      · rw [getElem?_eq_none (by omega), getElem?_append_right (by omega)]
        constructor
        · intro hi
          cases hi
        · intro hi
          have hmem := mem_of_getElem? hi
          rw [map_cons, map_nil, mem_singleton] at hmem
          exact absurd hmem.symm ha
  random := by
    rw [hrandom, h.random, length_append, length_singleton, range_succ]
  position i y hy := by
    by_cases hlt : i < all.length
    · rw [getElem?_append_left hlt] at hy
      exact h.position i y hy
    · have hbound := (List.getElem?_eq_some_iff.mp hy).1
      rw [length_append, length_singleton] at hbound
      obtain rfl : i = all.length := by omega
      rw [getElem?_append_right le_rfl, Nat.sub_self] at hy
      cases hy
      exact hpos

theorem update {all' : List CAddrInfo} {i : ℕ} (h : Numbered all t)
    (hall : ∀ j, all'[j]? = if i = j then some x else all[j]?) (hlen : all'.length = all.length)
    (hips : all'.map (·.ip) = all.map (·.ip)) (hpos : x.nRandomPos = i)
    (hinfo : t'.mapInfo = t.mapInfo.insert i x) (haddr : t'.mapAddr = t.mapAddr)
    (hrandom : t'.vRandom = t.vRandom) : Numbered all' t' where
  info j := by
    rw [hinfo, Std.TreeMap.getElem?_insert, h.info, hall]
    simp only [Std.compare_eq_iff_eq]
  addr a j := by rw [haddr, h.addr, hips]
  random := by rw [hrandom, h.random, hlen]
  position j y hy := by
    rw [hall] at hy
    split_ifs at hy with hij
    · cases hy
      rw [hpos, hij]
    · exact h.position j y hy

/-- The entries and their ids, listed twice. -/
theorem toList_perm (h : Numbered all t) : t.mapInfo.toList.Perm (all.zipIdx.map Prod.swap) := by
  have hnodup : ((all.zipIdx.map Prod.swap).map Prod.fst).Nodup := by
    rw [map_map, show Prod.fst ∘ Prod.swap = (Prod.snd : CAddrInfo × ℕ → ℕ) from rfl,
      zipIdx_map_snd]
    exact nodup_range'
  refine (perm_ext_iff_of_nodup t.nodup_ids.of_map hnodup.of_map).mpr fun e => ?_
  obtain ⟨i, info⟩ := e
  rw [Std.TreeMap.mem_toList_iff_getElem?_eq_some, h.info, mem_map]
  constructor
  · intro hi
    exact ⟨(info, i), mem_zipIdx_iff_getElem?.mpr hi, rfl⟩
  · rintro ⟨⟨info', i'⟩, hmem, heq⟩
    cases heq
    exact mem_zipIdx_iff_getElem?.mp hmem

theorem countP (h : Numbered all t) (p : CAddrInfo → Bool) :
    t.mapInfo.toList.countP (fun e => p e.2) = all.countP p := by
  rw [h.toList_perm.countP_eq, countP_map]
  have hfst := congrArg (List.countP p) (zipIdx_map_fst 0 all)
  rw [countP_map] at hfst
  exact hfst

theorem keys_perm (h : Numbered all t) : t.vRandom.Perm t.mapInfo.keys := by
  have hperm := h.toList_perm.map Prod.fst
  rw [Std.TreeMap.map_fst_toList_eq_keys, map_map,
    show Prod.fst ∘ Prod.swap = (Prod.snd : CAddrInfo × ℕ → ℕ) from rfl, zipIdx_map_snd,
    ← range_eq_range', ← h.random] at hperm
  exact hperm.symm

end Numbered

/-! ### The loops of the reader -/

namespace AddrMan

variable {E : AddrEnv} {nUBuckets nVersion : ℤ} {s t : CAddrMan} {r : List UInt8}

variable {b : List UInt8}

theorem readWrite_ok {α : Type} {read : Reader α} {x : α}
    (h : read b = some (x, r)) : readWrite read (b, s) = .ok x (r, s) := by
  simp only [readWrite, h]

theorem readWrite_tables {α : Type} {read : Reader α} {x : α}
    {st : List UInt8 × CAddrMan} (h : readWrite read (b, s) = .ok x st) : st.2 = s := by
  cases hread : read b with
  | none =>
    simp only [readWrite, hread] at h
    cases h
  | some y =>
    simp only [readWrite, hread] at h
    cases h
    rfl

theorem getTables_ok : getTables (b, s) = .ok s (b, s) := rfl

theorem modifyTables_ok (f : CAddrMan → CAddrMan) : modifyTables f (b, s) = .ok ()
    (b, f s) := rfl

/-- A new entry as it is loaded. -/
def loadedNew (nUBuckets : ℤ) (i : ℕ) (info : CAddrInfo) : CAddrInfo :=
  { info.stored with nRandomPos := i, nRefCount := if nUBuckets = newBucketCount then 0 else 1 }

/-- The buckets that new entries get into when they are loaded. -/
def loadedKeys (E : AddrEnv) (nUBuckets : ℤ) (infos : List CAddrInfo) : List ℕ :=
  if nUBuckets = newBucketCount then [] else infos.map fun info => getNewBucket E info info.source

theorem insertSet_perm {n : ℕ} {vNew : List ℕ} (hn : n ∉ vNew) :
    (Inverted.insertSet (· ≤ ·) n vNew).Perm (n :: vNew) := by
  rw [Inverted.insertSet, if_neg hn]
  exact perm_orderedInsert _ _ _

theorem getNewBucket_lt (info : CAddrInfo) (src : CNetAddr) :
    getNewBucket E info src < newBucketCount :=
  mod_lt _ (by decide)

theorem getTriedBucket_lt (info : CAddrInfo) : getTriedBucket E info < triedBucketCount :=
  mod_lt _ (by decide)

/-- The loop over the new entries. -/
theorem readNew_ok (done infos : List CAddrInfo) (hfits : ∀ info ∈ infos, info.Fits)
    (hversion : -2 ^ 31 ≤ nVersion ∧ nVersion < 2 ^ 31) (hips : ((done ++ infos).map (·.ip)).Nodup)
    (hnumbered : Numbered (done.mapIdx (loadedNew nUBuckets)) t)
    (hnew : Same t.vvNew (scatter newBucketCount 0 (loadedKeys E nUBuckets done)))
    (r : List UInt8) : ∃ t', readNew E nUBuckets infos.length done.length
    (infos.flatMap (·.serialize nVersion) ++ r, t) = .ok () (r, t') ∧
      Numbered ((done ++ infos).mapIdx (loadedNew nUBuckets)) t' ∧
      Same t'.vvNew (scatter newBucketCount 0 (loadedKeys E nUBuckets (done ++ infos))) ∧
      t'.vvTried = t.vvTried ∧ t'.nNew = t.nNew ∧ t'.nTried = t.nTried := by
  induction infos generalizing done t with
  | nil =>
    rw [append_nil]
    exact ⟨t, rfl, hnumbered, hnew, rfl, rfl, rfl⟩
  | cons info infos ih =>
    have hsplit : done ++ info :: infos = done ++ [info] ++ infos := by simp
    have hlen : (done.mapIdx (loadedNew nUBuckets)).length = done.length := length_mapIdx
    have hips' : (done.mapIdx (loadedNew nUBuckets)).map (·.ip) = done.map (·.ip) := by
      refine ext_getElem? fun i => ?_
      rw [getElem?_map, getElem?_mapIdx, getElem?_map, Option.map_map]
      rfl
    have hip : (loadedNew nUBuckets done.length info).ip ∉ (done.mapIdx (loadedNew nUBuckets)).map
      (·.ip) := by
      rw [hips']
      rw [map_append, map_cons] at hips
      exact fun hmem => (nodup_append.mp hips).2.2 _ hmem _ mem_cons_self rfl
    have hstep : Numbered ((done ++ [info]).mapIdx (loadedNew nUBuckets))
      (loadNew E nUBuckets done.length info.stored t) ∧
        Same (loadNew E nUBuckets done.length info.stored t).vvNew
          (scatter newBucketCount 0 (loadedKeys E nUBuckets (done ++ [info]))) ∧
        (loadNew E nUBuckets done.length info.stored t).vvTried = t.vvTried ∧
        (loadNew E nUBuckets done.length info.stored t).nNew = t.nNew ∧
        (loadNew E nUBuckets done.length info.stored t).nTried = t.nTried := by
      rw [mapIdx_concat]
      unfold loadNew loadedKeys
      unfold loadedKeys at hnew
      have hpos : (t.vRandom.length : ℤ) = done.length :=
        by rw [hnumbered.random, hlen, length_range]
      by_cases hsame : nUBuckets = newBucketCount
      · rw [if_neg (not_not.mpr hsame), if_pos hsame]
        rw [if_pos hsame] at hnew
        refine ⟨hnumbered.concat hip ?_ ?_ ?_ ?_, hnew, rfl, rfl, rfl⟩
        · rw [hlen]
          rfl
        · rw [hlen, hpos]
          simp only [loadedNew, if_pos hsame, CAddrInfo.stored]
        · rw [hlen]
          rfl
        · rw [hlen]
      · rw [if_pos hsame, if_neg hsame]
        rw [if_neg hsame] at hnew
        refine ⟨hnumbered.concat hip ?_ ?_ ?_ ?_, ?_, rfl, rfl, rfl⟩
        · rw [hlen]
          rfl
        · rw [hlen, hpos]
          simp only [loadedNew, if_neg hsame, CAddrInfo.stored, zero_add]
        · rw [hlen]
          rfl
        · rw [hlen]
        · rw [map_append, map_cons, map_nil, scatter_concat, length_map, zero_add]
          refine hnew.modify fun b c hb hperm => ?_
          obtain ⟨c', hc', hperm'⟩ := hnew.getElem? hb
          have hnot : done.length ∉ b := by
            intro hmem
            obtain ⟨i, hi, hget⟩ := (mem_scatter hc').mp (hperm'.mem_iff.mp hmem)
            have := (List.getElem?_eq_some_iff.mp hget).1
            rw [length_map] at this
            omega
          exact (insertSet_perm hnot).trans
            ((hperm.cons _).trans (perm_append_singleton _ _).symm)
    obtain ⟨hnumbered', hnew', htried, hnNew, hnTried⟩ := hstep
    obtain ⟨t', hrun, hnumbered'', hnew'', htried', hnNew', hnTried'⟩ :=
      ih (done ++ [info]) (fun info hmem => hfits info (.tail _ hmem))
        (hsplit ▸ hips) hnumbered' hnew'
    refine ⟨t', ?_, hsplit ▸ hnumbered'', hsplit ▸ hnew'', htried'.trans htried, hnNew'.trans hnNew,
      hnTried'.trans hnTried⟩
    rw [length_append, length_singleton] at hrun
    rw [length_cons, readNew, flatMap_cons, append_assoc, bind_of_ok
      (readWrite_ok (CAddrInfo.unserialize_serialize (hfits info mem_cons_self) hversion _)),
      bind_of_ok (modifyTables_ok _)]
    exact hrun

/-- A tried entry as it is loaded, after `base` new entries. -/
def loadedTried (base i : ℕ) (info : CAddrInfo) : CAddrInfo :=
  { info.stored with nRandomPos := (base + i : ℕ), fInTried := true }

/-- What the loop over the tried entries keeps of them. -/
structure Kept (E : AddrEnv) (news kept : List CAddrInfo) (t : CAddrMan) : Prop where
  numbered : Numbered (news ++ kept.mapIdx (loadedTried news.length)) t
  table : t.vvTried = scatter triedBucketCount news.length (kept.map (getTriedBucket E))
  size : ∀ k, (kept.map (getTriedBucket E)).count k ≤ triedBucketSize

theorem loadedTried_ips (base : ℕ) (infos : List CAddrInfo) :
    (infos.mapIdx (loadedTried base)).map (·.ip) = infos.map (·.ip) := by
  refine ext_getElem? fun i => ?_
  rw [getElem?_map, getElem?_mapIdx, getElem?_map, Option.map_map]
  rfl

theorem Kept.length_bucket {news kept : List CAddrInfo} (h : Kept E news kept t)
    (info : CAddrInfo) : (t.vvTried.getD (getTriedBucket E info) []).length =
    (kept.map (getTriedBucket E)).count (getTriedBucket E info) := by
  have hlt : getTriedBucket E info < t.vvTried.length := by
    rw [h.table, length_scatter]
    exact getTriedBucket_lt info
  rw [getD_eq_getElem?_getD, getElem?_eq_getElem hlt, getD_some]
  refine @length_of_scatter triedBucketCount news.length _ _ _ ?_
  rw [← h.table, getElem?_eq_getElem hlt]

/-- The loop over the tried entries: it leaves out what does not fit into its bucket. -/
theorem readTried_ok (news kept trieds : List CAddrInfo) (nLost : ℕ)
    (hfits : ∀ info ∈ trieds, info.Fits) (hversion : -2 ^ 31 ≤ nVersion ∧ nVersion < 2 ^ 31)
    (hips : ((news ++ kept ++ trieds).map (·.ip)).Nodup)
    (hkept : Kept E news kept t) (hid : t.nIdCount = news.length + kept.length) (r : List UInt8) :
    ∃ more t', readTried E trieds.length nLost (trieds.flatMap (·.serialize nVersion) ++ r, t) =
        .ok (nLost + (trieds.length - more.length)) (r, t') ∧
      more.Sublist trieds ∧ Kept E news (kept ++ more) t' ∧
      ((∀ k, ((kept ++ trieds).map (getTriedBucket E)).count k ≤ triedBucketSize) → more = trieds) ∧
      t'.vvNew = t.vvNew ∧ t'.nNew = t.nNew ∧ t'.nTried = t.nTried := by
  induction trieds generalizing kept t nLost with
  | nil => exact ⟨[], t, rfl, .slnil, by rwa [append_nil], fun _ => rfl, rfl, rfl, rfl⟩
  | cons info trieds ih =>
    have hread := readWrite_ok (s := t)
      (CAddrInfo.unserialize_serialize (hfits info mem_cons_self) hversion (trieds.flatMap (·.serialize nVersion) ++ r))
    have hfits' : ∀ info ∈ trieds, info.Fits := fun info hmem => hfits info (.tail _ hmem)
    rw [length_cons, readTried, flatMap_cons, append_assoc, bind_of_ok hread, bind_of_ok getTables_ok]
    have hbucket : getTriedBucket E info.stored = getTriedBucket E info := rfl
    simp only [hbucket, hkept.length_bucket info]
    split_ifs with hsize
    · have hsplit : kept ++ info :: trieds = kept ++ [info] ++ trieds := by simp
      have hlen : (news ++ kept.mapIdx (loadedTried news.length)).length = t.nIdCount := by
        rw [length_append, length_mapIdx, hid]
      have hip : (loadedTried news.length kept.length info).ip ∉
          (news ++ kept.mapIdx (loadedTried news.length)).map (·.ip) := by
        rw [map_append, loadedTried_ips, ← map_append]
        rw [map_append, map_cons] at hips
        exact fun hmem => (nodup_append.mp hips).2.2 _ hmem _ mem_cons_self rfl
      have hpos : (t.vRandom.length : ℤ) = (news.length + kept.length : ℕ) := by
        rw [hkept.numbered.random, length_range, hlen, hid]
      have hnext : Kept E news (kept ++ [info]) { t with
          vRandom := t.vRandom ++ [t.nIdCount]
          mapInfo := t.mapInfo.insert t.nIdCount { info.stored with nRandomPos := t.vRandom.length, fInTried := true }
          mapAddr := t.mapAddr.insert info.stored.ip t.nIdCount
          vvTried := t.vvTried.modify (getTriedBucket E info) fun vTried => vTried ++ [t.nIdCount]
          nIdCount := t.nIdCount + 1 } := by
        refine ⟨?_, ?_, fun k => ?_⟩
        · rw [mapIdx_concat, ← append_assoc]
          refine hkept.numbered.concat hip ?_ ?_ ?_ ?_
          · rw [hlen, hid]
            rfl
          · rw [hlen, hpos]
            rfl
          · rw [hlen]
            rfl
          · rw [hlen]
        · show t.vvTried.modify _ _ = _
          rw [map_append, map_cons, map_nil, scatter_concat, length_map, ← hid, hkept.table]
        · rw [map_append, count_append, map_cons, map_nil, count_singleton]
          have hk := hkept.size k
          split_ifs with heq
          · rw [← beq_iff_eq.mp heq]
            omega
          · exact hk
      obtain ⟨more, t', hrun, hsub, hkept', hall, hnew, hnNew, hnTried⟩ := ih _ nLost hfits'
        (by simpa using hips) hnext
        (by rw [length_append, length_singleton]; show t.nIdCount + 1 = _; omega)
      refine ⟨info :: more, t', ?_, hsub.cons_cons info,
        by simpa using hkept', fun hcount => ?_, hnew, hnNew, hnTried⟩
      · rw [bind_of_ok (modifyTables_ok _)]
        rw [length_cons, Nat.add_sub_add_right]
        exact hrun
      · rw [hall (hsplit ▸ hcount)]
    · have hsub' : (news ++ kept ++ trieds).Sublist (news ++ kept ++ info :: trieds) :=
        (List.Sublist.refl _).append (sublist_cons_self _ _)
      obtain ⟨more, t', hrun, hsub, hkept', -, hnew, hnNew, hnTried⟩ := ih _ (nLost + 1) hfits'
        (hips.sublist (hsub'.map _)) hkept hid
      have hle := hsub.length_le
      refine ⟨more, t', ?_, hsub.cons info, hkept', fun hcount => ?_, hnew, hnNew, hnTried⟩
      · rw [show nLost + (trieds.length + 1 - more.length) =
          nLost + 1 + (trieds.length - more.length) by omega]
        exact hrun
      · have hk := hcount (getTriedBucket E info)
        rw [map_append, map_cons, count_append, count_cons_self] at hk
        omega

/-! ### The new buckets of the file -/

/-- A bucket of the file. -/
def writeIndexes (ids : List ℕ) : List UInt8 := writeInt 4 ids.length ++ ids.flatMap (bytesLE 4)

/-- The first `m` entries, with their copies in a table as their references. -/
def recount (m : ℕ) (table : List (List ℕ)) (all : List CAddrInfo) : List CAddrInfo :=
  all.mapIdx fun i x => if i < m then { x with nRefCount := (copies i table : ℤ) } else x

/-- The other tables are as they were. -/
structure OnlyNew (s t : CAddrMan) : Prop where
  vvTried : t.vvTried = s.vvTried
  nTried : t.nTried = s.nTried
  nNew : t.nNew = s.nNew

theorem OnlyNew.trans {s t u : CAddrMan} (h : OnlyNew s t) (h' : OnlyNew t u) : OnlyNew s u :=
  ⟨h'.vvTried.trans h.vvTried, h'.nTried.trans h.nTried, h'.nNew.trans h.nNew⟩

section Same

variable {all : List CAddrInfo} {m b i : ℕ} {vNew : List ℕ}

/-- An entry gets back into one of its new buckets. -/
theorem loadIndex_ok (h : Numbered (recount m t.vvNew all) t) (hm : m ≤ all.length) (hi : i < m)
    (hb : t.vvNew[b]? = some vNew) (hnot : i ∉ vNew) (hcopies : copies i t.vvNew < 8) :
    Numbered (recount m (loadIndex newBucketCount b i t).vvNew all)
    (loadIndex newBucketCount b i t) ∧
      (loadIndex newBucketCount b i t).vvNew = t.vvNew.set b (Inverted.insertSet (· ≤ ·) i vNew) ∧
      OnlyNew t (loadIndex newBucketCount b i t) := by
  obtain ⟨x, hx⟩ : ∃ x, all[i]? = some x := ⟨_, getElem?_eq_getElem (by omega)⟩
  have hget : t.mapInfo[i]? = some { x with nRefCount := (copies i t.vvNew : ℤ) } := by
    rw [h.info, recount, getElem?_mapIdx, hx, map_some, if_pos hi]
  have hlt : ((copies i t.vvNew : ℤ) : ℤ) < newBucketsPerAddress := by
    rw [newBucketsPerAddress]
    omega
  have hload : loadIndex newBucketCount b i t = { t with
      mapInfo := t.mapInfo.insert i { x with nRefCount := (copies i t.vvNew : ℤ) + 1 }
      vvNew := t.vvNew.set b (Inverted.insertSet (· ≤ ·) i vNew) } := by
    unfold loadIndex
    rw [hget, getD_some]
    rw [if_pos ⟨rfl, hlt⟩, modify_of_getElem? hb]
  rw [hload]
  refine ⟨h.update (i := i) (fun j => ?_) ?_ ?_ ?_ rfl rfl rfl, rfl, rfl, rfl, rfl⟩
  · have hset := copies_set hb j (Inverted.insertSet (· ≤ ·) i vNew)
    rw [(insertSet_perm hnot).count_eq, count_cons] at hset
    unfold recount
    dsimp only
    rw [getElem?_mapIdx, getElem?_mapIdx]
    simp only [beq_iff_eq] at hset
    by_cases hij : i = j
    · subst hij
      rw [if_pos rfl] at hset ⊢
      rw [hx, map_some, if_pos hi]
      congr 2
      omega
    · rw [if_neg hij] at hset ⊢
      have hsame : copies j (t.vvNew.set b (Inverted.insertSet (· ≤ ·) i vNew)) =
        copies j t.vvNew := by omega
      rw [hsame]
  · rw [recount, recount, length_mapIdx, length_mapIdx]
  · refine ext_getElem? fun j => ?_
    unfold recount
    rw [getElem?_map, getElem?_map, getElem?_mapIdx, getElem?_mapIdx,
      Option.map_map, Option.map_map]
    split_ifs <;> rfl
  · have hpos := h.position i _ (by rw [← h.info]; exact hget)
    exact hpos

/-- A bucket of the file. -/
theorem readIndexes_ok {ids : List ℕ} (h : Numbered (recount m t.vvNew all) t) (hm : m ≤ all.length)
    (hm' : m < 2 ^ 32) (hlt : ∀ i ∈ ids, i < m) (hnodup : ids.Nodup) (hb : t.vvNew[b]? = some vNew)
    (hdisj : ∀ i ∈ ids, i ∉ vNew) (hcopies : ∀ i ∈ ids, copies i t.vvNew < 8) (r : List UInt8) :
    ∃ t', readIndexes newBucketCount b ids.length (ids.flatMap (bytesLE 4) ++ r, t) =
    .ok () (r, t') ∧ Numbered (recount m t'.vvNew all) t' ∧
      (∃ vNew', t'.vvNew = t.vvNew.set b vNew' ∧ vNew'.Perm (vNew ++ ids)) ∧ OnlyNew t t' := by
  induction ids generalizing t vNew with
  | nil =>
    refine ⟨t, rfl, h, ⟨vNew, (set_of_getElem? hb).symm, by rw [append_nil]⟩, rfl, rfl, rfl⟩
  | cons i ids ih =>
    obtain ⟨hi, hnodup'⟩ := nodup_cons.mp hnodup
    have hnot := hdisj i mem_cons_self
    have him := hlt i mem_cons_self
    obtain ⟨hnext, htable, hframe⟩ := loadIndex_ok h hm him hb hnot (hcopies i mem_cons_self)
    have hperm := insertSet_perm hnot
    have hbt := (List.getElem?_eq_some_iff.mp hb).1
    have hb' : (loadIndex newBucketCount b i t).vvNew[b]? =
      some (Inverted.insertSet (· ≤ ·) i vNew) := by
      rw [htable, getElem?_set_self hbt]
    obtain ⟨t', hrun, hnum, ⟨vNew', htable', hperm'⟩, hframe'⟩ :=
      ih hnext (fun j hj => hlt j (.tail _ hj)) hnodup' hb' (fun j hj => by
        rw [hperm.mem_iff, mem_cons, not_or]
        exact ⟨fun heq => hi (heq ▸ hj), hdisj j (.tail _ hj)⟩)
      (fun j hj => by
        have hij : i ≠ j := fun heq => hi (heq ▸ hj)
        have hset := copies_set hb j (Inverted.insertSet (· ≤ ·) i vNew)
        rw [hperm.count_eq, count_cons_of_ne hij] at hset
        have := hcopies j (.tail _ hj)
        rw [htable]
        omega)
    refine ⟨t', ?_, hnum, ⟨vNew', by rw [htable', htable, set_set], ?_⟩, hframe.trans hframe'⟩
    · rw [length_cons, readIndexes, flatMap_cons, append_assoc,
        bind_of_ok (readWrite_ok ((reads_word 4).write_append (by omega) _)),
        bind_of_ok (modifyTables_ok _)]
      exact hrun
    · refine hperm'.trans ((hperm.append_right ids).trans ?_)
      exact perm_middle.symm

/-- The buckets of the file, when the number of buckets is the same. -/
theorem readBuckets_ok (done buckets : List (List ℕ)) (h : Numbered (recount m t.vvNew all) t)
    (hm : m ≤ all.length) (hm' : m < 2 ^ 32)
    (hvv : t.vvNew = done ++ replicate buckets.length []) (hsets : ∀ ids ∈ buckets, ids.Nodup)
    (hlt : ∀ ids ∈ buckets, ∀ i ∈ ids, i < m) (hsize : ∀ ids ∈ buckets, ids.length < 2 ^ 31)
    (hcopies : ∀ i, copies i done + copies i buckets ≤ 8) (r : List UInt8) :
    ∃ t', readBuckets newBucketCount buckets.length done.length (buckets.flatMap writeIndexes ++ r,
    t) = .ok () (r, t') ∧
      Numbered (recount m t'.vvNew all) t' ∧ (∃ bs, Same bs buckets ∧ t'.vvNew = done ++ bs) ∧
      OnlyNew t t' := by
  induction buckets generalizing done t with
  | nil =>
    rw [length_nil, replicate_zero, append_nil] at hvv
    exact ⟨t, rfl, h, ⟨[], .nil, by rw [hvv, append_nil]⟩, rfl, rfl, rfl⟩
  | cons ids buckets ih =>
    have hbound : done.length < t.vvNew.length := by
      rw [hvv, length_append, length_replicate, length_cons]
      omega
    have hb : t.vvNew[done.length]? = some [] := by
      rw [hvv, getElem?_append_right le_rfl, Nat.sub_self, length_cons, replicate_succ]
      rfl
    have hold : ∀ i, copies i t.vvNew = copies i done := by
      intro i
      rw [hvv, copies, flatten_append, count_append]
      exact add_eq_left.mpr (copies_replicate_nil i _)
    have hidsSize := hsize ids mem_cons_self
    obtain ⟨t1, hrun1, hnum1, ⟨vNew', htable1, hperm⟩, hframe1⟩ := readIndexes_ok h hm hm'
      (hlt ids mem_cons_self) (hsets ids mem_cons_self) hb (fun i _ => not_mem_nil)
      (fun i hi => by
        have hcount := hcopies i
        have hpos := count_pos_iff.mpr hi
        rw [copies_cons] at hcount
        rw [hold]
        omega) (buckets.flatMap writeIndexes ++ r)
    have hvv1 : t1.vvNew = done ++ [vNew'] ++ replicate buckets.length [] := by
      rw [htable1, hvv, set_append_right _ _ le_rfl, Nat.sub_self, length_cons, replicate_succ]
      simp
    rw [nil_append] at hperm
    obtain ⟨t', hrun, hnum, ⟨bs, hsame, htable⟩, hframe⟩ :=
      ih _ hnum1 hvv1 (fun ids hmem => hsets ids (.tail _ hmem))
      (fun ids hmem => hlt ids (.tail _ hmem)) (fun ids hmem => hsize ids (.tail _ hmem))
      (fun i => by
        have hcount := hcopies i
        rw [copies_cons] at hcount
        rw [copies, flatten_append, count_append]
        have hone : ([vNew'].flatten).count i = ids.count i := by
          rw [flatten_cons, flatten_nil, append_nil, hperm.count_eq]
        show copies i done + _ + _ ≤ _
        omega)
    refine ⟨t', ?_, hnum, ⟨vNew' :: bs, .cons hperm hsame, by rw [htable]; simp⟩,
      hframe1.trans hframe⟩
    rw [length_append, length_singleton] at hrun
    rw [length_cons, readBuckets, flatMap_cons, writeIndexes, append_assoc,
      append_assoc, bind_of_ok getTables_ok, if_pos hbound,
      bind_of_ok (readWrite_ok (reads_int4.write_append ⟨by omega, by omega⟩ _)), Int.toNat_natCast,
      bind_of_ok hrun1]
    exact hrun

end Same

section Rebuilt

variable {all : List CAddrInfo} {b i : ℕ}

theorem loadIndex_skip (hne : nUBuckets ≠ newBucketCount) (h : Numbered all t)
    (hi : i < all.length) : Numbered all (loadIndex nUBuckets b i t) ∧
    (loadIndex nUBuckets b i t).vvNew = t.vvNew ∧ OnlyNew t (loadIndex nUBuckets b i t) := by
  have hx := getElem?_eq_getElem hi
  have hload : loadIndex nUBuckets b i t = { t with mapInfo := t.mapInfo.insert i all[i] } := by
    unfold loadIndex
    rw [h.info, hx, getD_some]
    rw [if_neg fun hcond => hne hcond.1]
  rw [hload]
  refine ⟨h.update (i := i) (fun j => ?_) rfl rfl (h.position i _ hx) rfl rfl rfl, rfl,
    rfl, rfl, rfl⟩
  split_ifs with hij
  · rw [← hij, hx]
  · rfl

theorem readIndexes_skip {ids : List ℕ} (hne : nUBuckets ≠ newBucketCount) (h : Numbered all t)
    (hall : all.length < 2 ^ 32) (hlt : ∀ i ∈ ids, i < all.length) (r : List UInt8) :
    ∃ t', readIndexes nUBuckets b ids.length (ids.flatMap (bytesLE 4) ++ r, t) = .ok () (r, t') ∧
      Numbered all t' ∧ t'.vvNew = t.vvNew ∧ OnlyNew t t' := by
  induction ids generalizing t with
  | nil => exact ⟨t, rfl, h, rfl, rfl, rfl, rfl⟩
  | cons i ids ih =>
    have hi := hlt i mem_cons_self
    obtain ⟨hnext, hvv, hframe⟩ := loadIndex_skip (b := b) hne h hi
    obtain ⟨t', hrun, hnum, hvv', hframe'⟩ := ih hnext fun i hmem => hlt i (.tail _ hmem)
    refine ⟨t', ?_, hnum, hvv'.trans hvv, hframe.trans hframe'⟩
    rw [length_cons, readIndexes, flatMap_cons, append_assoc,
      bind_of_ok (readWrite_ok ((reads_word 4).write_append (by omega) _)),
      bind_of_ok (modifyTables_ok _)]
    exact hrun

theorem readBuckets_skip (buckets : List (List ℕ)) (hne : nUBuckets ≠ newBucketCount)
    (h : Numbered all t) (hall : all.length < 2 ^ 32)
    (hlt : ∀ ids ∈ buckets, ∀ i ∈ ids, i < all.length)
    (hsize : ∀ ids ∈ buckets, ids.length < 2 ^ 31) (hbound : b + buckets.length ≤ t.vvNew.length)
    (r : List UInt8) : ∃ t', readBuckets nUBuckets buckets.length b (buckets.flatMap writeIndexes ++
    r, t) = .ok () (r, t') ∧ Numbered all t' ∧ t'.vvNew = t.vvNew ∧ OnlyNew t t' := by
  induction buckets generalizing b t with
  | nil => exact ⟨t, rfl, h, rfl, rfl, rfl, rfl⟩
  | cons ids buckets ih =>
    rw [length_cons] at hbound
    have hids := hsize ids mem_cons_self
    obtain ⟨t1, hrun1, hnum1, hvv1, hframe1⟩ :=
      readIndexes_skip (b := b) hne h hall (hlt ids mem_cons_self)
      (buckets.flatMap writeIndexes ++ r)
    obtain ⟨t', hrun, hnum, hvv, hframe⟩ :=
      ih (b := b + 1) hnum1 (fun ids hmem => hlt ids (.tail _ hmem))
      (fun ids hmem => hsize ids (.tail _ hmem)) (by rw [hvv1]; omega)
    refine ⟨t', ?_, hnum, hvv.trans hvv1, hframe1.trans hframe⟩
    rw [length_cons, readBuckets, flatMap_cons, writeIndexes, append_assoc,
      append_assoc, bind_of_ok getTables_ok, if_pos (by omega),
      bind_of_ok (readWrite_ok (reads_int4.write_append ⟨by omega, by omega⟩ _)), Int.toNat_natCast,
      bind_of_ok hrun1]
    exact hrun

theorem readIndexes_length {more : ℕ} {bs : List UInt8} {u : Unit} {st : List UInt8 × CAddrMan}
    (hrun : readIndexes nUBuckets b more (bs, t) = .ok u st) :
    st.2.vvNew.length = t.vvNew.length := by
  induction more generalizing bs t with
  | zero =>
    cases hrun
    rfl
  | succ more ih =>
    obtain ⟨i, ⟨bs1, t1⟩, hread, hrest⟩ := bind_eq_ok.mp hrun
    obtain rfl : t1 = t := readWrite_tables hread
    rw [ih hrest]
    unfold loadIndex
    dsimp only
    split_ifs
    · exact length_modify ..
    · rfl

/-- **The reader does not get past the last bucket of its table.** -/
theorem readBuckets_bound {more : ℕ} {bs : List UInt8} {u : Unit} {st : List UInt8 × CAddrMan}
    (hrun : readBuckets nUBuckets more b (bs, t) = .ok u st) :
    more = 0 ∨ b + more ≤ t.vvNew.length := by
  induction more generalizing b bs t with
  | zero => exact .inl rfl
  | succ more ih =>
    rw [readBuckets, bind_of_ok getTables_ok] at hrun
    split_ifs at hrun with hb
    · obtain ⟨nSize, ⟨bs1, t1⟩, hread, hrest⟩ := bind_eq_ok.mp hrun
      obtain ⟨_, ⟨bs2, t2⟩, hindexes, hmore⟩ := bind_eq_ok.mp hrest
      obtain rfl : t1 = t := readWrite_tables hread
      have hlen : t2.vvNew.length = t1.vvNew.length := readIndexes_length hindexes
      have := ih hmore
      omega
    · cases hrun

end Rebuilt

end AddrMan

/-- **Numbered tables are consistent** when every entry has its copies in the buckets. -/
theorem Numbered.consistent {nBuckets : ℕ} {all : List CAddrInfo} {t : CAddrMan}
    (h : Numbered all t) (hrefs : ∀ (i : ℕ) (x : CAddrInfo), all[i]? = some x → x.nRefCount =
    copies i t.vvNew) (htried : ∀ (i : ℕ) (x : CAddrInfo), all[i]? = some x → x.fInTried = true →
      x.nLastSuccess ≠ 0 ∧ copies i t.vvTried = 1 ∧ copies i t.vvNew = 0)
    (hnew : ∀ (i : ℕ) (x : CAddrInfo), all[i]? = some x → x.fInTried = false →
      copies i t.vvTried = 0 ∧ 1 ≤ copies i t.vvNew ∧ copies i t.vvNew ≤ 8)
    (hsuccess : ∀ x ∈ all, 0 ≤ x.nLastSuccess)
    (hknown : ∀ bucket ∈ t.vvTried ++ t.vvNew, ∀ i ∈ bucket, i < all.length)
    (hsets : ∀ vNew ∈ t.vvNew, vNew.Nodup)
      (hsize : ∀ bucket ∈ t.vvTried ++ t.vvNew, bucket.length ≤ 64)
    (htables : t.vvTried.length = triedBucketCount ∧ t.vvNew.length = nBuckets)
    (hnTried : (all.countP (·.fInTried) : ℤ) = t.nTried)
      (hnNew : (all.countP (!·.fInTried) : ℤ) = t.nNew) :
    Consistent nBuckets t where
  random := h.keys_perm
  position n info hinfo := by
    rw [h.info] at hinfo
    refine ⟨n, h.position n info hinfo, ?_⟩
    rw [h.random, List.getElem?_range (List.getElem?_eq_some_iff.mp hinfo).1]
  inverse a n := by
    rw [h.addr, getElem?_map, Option.map_eq_some_iff]
    simp only [h.info]
  tried n info hinfo hin := by
    rw [h.info] at hinfo
    obtain ⟨hne, hone, hzero⟩ := htried n info hinfo hin
    exact ⟨hne, by rw [hrefs n info hinfo, hzero]; rfl, hone, copies_eq_zero.mp hzero⟩
  new n info hinfo hout := by
    rw [h.info] at hinfo
    obtain ⟨hzero, hlow, hhigh⟩ := hnew n info hinfo hout
    rw [← copies_eq_countP hsets, hrefs n info hinfo]
    exact ⟨by omega, by omega, rfl, copies_eq_zero.mp hzero⟩
  known bucket hbucket n hn := by
    have hlt := hknown bucket hbucket n hn
    exact ⟨all[n], by rw [h.info, getElem?_eq_getElem hlt]⟩
  success n info hinfo := by
    rw [h.info] at hinfo
    exact hsuccess info (mem_of_getElem? hinfo)
  nTried := by rw [h.countP (·.fInTried), hnTried]
  nNew := by rw [h.countP (!·.fInTried), hnNew]
  sets := hsets
  size := hsize
  tables := htables

end Espers
