import Espers.Addr.Reload

/-!
# What the file of the address manager keeps

* `CAddrMan.unserialize_entries` : the entries of the file, up to its new buckets.
* `peers_roundTrip` : **a file is read back to the same books**, with other ids.
* `peers_rebuilt` : **when the number of new buckets is another one**, the books are rebuilt exactly
  if the file has no more new buckets than this program, and no bucket gets too many entries.
-/

namespace Espers

open Exec Wire Buckets AddrMan List Nat Bool
open Option (map_eq_some_iff map_some isSome_iff_exists)

theorem countP_mapIdx {α β : Type} {f : ℕ → α → β} {p : β → Bool} {q : α → Bool}
    (h : ∀ i x, p (f i x) = q x) {l : List α} : (l.mapIdx f).countP p = l.countP q := by
  induction l using List.reverseRecOn with
  | nil => rfl
  | append_singleton l x ih =>
    rw [mapIdx_concat, countP_append, countP_append, ih, countP_singleton, countP_singleton, h]

namespace CAddrMan

variable {s : CAddrMan} {n : ℕ} {info : CAddrInfo} {nBuckets : ℕ}

/-- The new entries and the tried entries without their ids. -/
def news (s : CAddrMan) : List CAddrInfo := s.newEntries.map Prod.snd

def trieds (s : CAddrMan) : List CAddrInfo := s.triedEntries.map Prod.snd

/-- The numbers of the tables fit. -/
structure Fits (s : CAddrMan) : Prop where
  entries : ∀ (n : ℕ) (info : CAddrInfo), s.mapInfo[n]? = some info → info.Fits
  nNew : s.nNew < 2 ^ 31
  nTried : s.nTried < 2 ^ 31

theorem mem_news (h : info ∈ s.news) : ∃ n : ℕ, s.mapInfo[n]? = some info ∧
    info.fInTried = false := by
  obtain ⟨⟨n, info'⟩, hmem, rfl⟩ := mem_map.mp h
  exact ⟨n, mem_newEntries.mp hmem⟩

theorem mem_trieds (h : info ∈ s.trieds) : ∃ n : ℕ, s.mapInfo[n]? = some info ∧
    info.fInTried = true := by
  obtain ⟨⟨n, info'⟩, hmem, rfl⟩ := mem_map.mp h
  exact ⟨n, mem_triedEntries.mp hmem⟩

theorem length_news (h : Consistent nBuckets s) : (s.news.length : ℤ) = s.nNew := by
  rw [← h.nNew, news, length_map, newEntries, ← countP_eq_length_filter]

theorem length_trieds (h : Consistent nBuckets s) : (s.trieds.length : ℤ) = s.nTried := by
  rw [← h.nTried, trieds, length_map, triedEntries, ← countP_eq_length_filter]

theorem nodup_entries (s : CAddrMan) : (s.newEntries ++ s.triedEntries).Nodup := by
  have hnodup : s.mapInfo.toList.Nodup := s.nodup_ids.of_map
  refine nodup_append.mpr ⟨hnodup.filter _, hnodup.filter _, ?_⟩
  rintro ⟨n, info⟩ hnew ⟨n', info'⟩ htried heq
  cases heq
  rw [mem_newEntries] at hnew
  rw [mem_triedEntries] at htried
  rw [hnew.2] at htried
  cases htried.2

theorem mem_entries : (n, info) ∈ s.newEntries ++ s.triedEntries ↔ s.mapInfo[n]? = some info := by
  rw [mem_append, mem_newEntries, mem_triedEntries]
  cases info.fInTried <;> simp

theorem nodup_ips (h : Consistent nBuckets s) : ((s.news ++ s.trieds).map (·.ip)).Nodup := by
  rw [news, trieds, ← map_append, map_map]
  refine s.nodup_entries.map_on ?_
  rintro ⟨n, info⟩ hmem ⟨n', info'⟩ hmem' heq
  rw [mem_entries] at hmem hmem'
  have hn := (h.inverse info.ip n).mpr ⟨info, hmem, rfl⟩
  have hn' := (h.inverse info.ip n').mpr ⟨info', hmem', heq.symm⟩
  rw [hn] at hn'
  cases hn'
  rw [hmem] at hmem'
  cases hmem'
  rfl

theorem countP_tried (s : CAddrMan) : (s.news ++ s.trieds).countP (·.fInTried) =
    s.trieds.length := by
  have hnews : s.news.countP (·.fInTried) = 0 := by
    rw [countP_eq_zero]
    intro info hmem
    obtain ⟨n, -, hnew⟩ := mem_news hmem
    simp [hnew]
  have htrieds : s.trieds.countP (·.fInTried) = s.trieds.length := by
    rw [countP_eq_length]
    intro info hmem
    obtain ⟨n, -, htried⟩ := mem_trieds hmem
    exact htried
  rw [countP_append, hnews, htrieds, zero_add]

theorem countP_new (s : CAddrMan) : (s.news ++ s.trieds).countP (!·.fInTried) = s.news.length := by
  have hall := length_eq_countP_add_countP (·.fInTried) (l := s.news ++ s.trieds)
  rw [countP_tried, length_append] at hall
  simp only [not_eq_true, decide_eq_false] at hall
  omega

/-- The new buckets of the file. -/
def indexTable (s : CAddrMan) : List (List ℕ) := s.vvNew.map fun vNew => vNew.map s.newIndex

theorem flatMap_indexBucket : s.vvNew.flatMap s.indexBucket =
    s.indexTable.flatMap writeIndexes := by
  rw [indexTable, flatMap_map]
  refine flatMap_congr fun vNew _ => ?_
  rw [indexBucket, writeIndexes, length_map]

end CAddrMan

namespace AddrMan

variable {s : CAddrMan} {nBuckets : ℕ} {nVersion : ℤ} {nKey : List UInt8} {E : List UInt8 → AddrEnv}

theorem loadedNew_ips (nUBuckets : ℤ) (infos : List CAddrInfo) :
    (infos.mapIdx (loadedNew nUBuckets)).map (·.ip) = infos.map (·.ip) := by
  refine ext_getElem? fun i => ?_
  rw [getElem?_map, getElem?_mapIdx, getElem?_map, Option.map_map]
  rfl

/-- **The entries of a file**, up to its new buckets. -/
theorem unserialize_entries (h : Consistent nBuckets s) (hfits : s.Fits)
    (hversion : -2 ^ 31 ≤ nVersion ∧ nVersion < 2 ^ 31) (hkey : nKey.length ≤ maxSize)
    (hbuckets : nBuckets < 2 ^ 31) (t0 : CAddrMan) (r : List UInt8) :
    ∃ kept t, CAddrMan.unserialize E (s.serialize nBuckets nVersion nKey ++ r, t0) =
        (readBuckets nBuckets nBuckets 0 >>= fun _ => pure nKey)
        (s.indexTable.flatMap writeIndexes ++ r, t) ∧
      Kept (E nKey) (s.news.mapIdx (loadedNew nBuckets)) kept t ∧ kept.Sublist s.trieds ∧
      ((∀ k, (s.trieds.map (getTriedBucket (E nKey))).count k ≤ triedBucketSize) →
        kept = s.trieds) ∧
      Same t.vvNew (scatter newBucketCount 0 (loadedKeys (E nKey) nBuckets s.news)) ∧
      t.nNew = s.nNew ∧ t.nTried = kept.length := by
  have hlenNew := CAddrMan.length_news h
  have hlenTried := CAddrMan.length_trieds h
  have hnNew : s.nNew.toNat = s.news.length := by omega
  have hnTried : s.nTried.toNat = s.trieds.length := by omega
  have hips := CAddrMan.nodup_ips h
  have hstart : Numbered [] { CAddrMan.empty with nNew := s.nNew, nTried := s.nTried } :=
    .nil rfl rfl rfl
  have hempty : Same CAddrMan.empty.vvNew
    (scatter newBucketCount 0 (loadedKeys (E nKey) nBuckets [])) := by
    have hkeys : loadedKeys (E nKey) nBuckets [] = [] := by
      unfold loadedKeys
      split_ifs <;> rfl
    rw [hkeys, scatter_nil]
    exact Same.refl _
  obtain ⟨t1, hrun1, hnum1, hnew1, htried1, hnNew1, hnTried1⟩ := readNew_ok (E := E nKey) [] s.news
    (fun info hmem => by
      obtain ⟨n, hinfo, -⟩ := CAddrMan.mem_news hmem
      exact hfits.entries n info hinfo) hversion (by
        rw [map_append] at hips
        exact (nodup_append.mp hips).1) hstart hempty
    (s.trieds.flatMap (·.serialize nVersion) ++ (s.indexTable.flatMap writeIndexes ++ r))
  obtain ⟨kept, t2, hrun2, hsub, hkept, hall, hnew2, hnNew2, hnTried2⟩ := readTried_ok (E := E nKey)
    (t := { t1 with nIdCount := s.news.length }) (s.news.mapIdx (loadedNew nBuckets)) [] s.trieds 0
    (fun info hmem => by
      obtain ⟨n, hinfo, -⟩ := CAddrMan.mem_trieds hmem
      exact hfits.entries n info hinfo) hversion
    (by rw [append_nil, map_append, loadedNew_ips, ← map_append]; exact hips)
    ⟨by
      rw [mapIdx_nil, append_nil]
      exact ⟨hnum1.info, hnum1.addr, hnum1.random, hnum1.position⟩,
      by
        rw [map_nil, scatter_nil]
        exact htried1, fun k => by simp⟩
    (by rw [length_mapIdx, length_nil, add_zero])
    (s.indexTable.flatMap writeIndexes ++ r)
  rw [zero_add] at hrun2
  have hle := hsub.length_le
  refine ⟨kept, { t2 with nTried := t2.nTried - (s.trieds.length - kept.length : ℕ) }, ?_,
    ⟨⟨hkept.numbered.info, hkept.numbered.addr, hkept.numbered.random, hkept.numbered.position⟩,
    hkept.table, hkept.size⟩, hsub, hall, ?_, ?_, ?_⟩
  · have hnewInt := hfits.nNew
    have htriedInt := hfits.nTried
    have hbytesNew : s.newEntries.flatMap (·.2.serialize nVersion) =
      s.news.flatMap (·.serialize nVersion) := by
      rw [CAddrMan.news, flatMap_map]
    have hbytesTried : s.triedEntries.flatMap (·.2.serialize nVersion) =
      s.trieds.flatMap (·.serialize nVersion) := by
      rw [CAddrMan.trieds, flatMap_map]
    rw [CAddrMan.serialize_eq h, CAddrMan.flatMap_indexBucket, hbytesNew, hbytesTried]
    simp only [cons_append, append_assoc]
    unfold CAddrMan.unserialize
    have hbyte : ∀ b : List UInt8, readBytes 1 (0 :: b) = some ([0], b) :=
      fun b => readBytes_eq_some.mpr ⟨rfl, rfl⟩
    rw [bind_of_ok (readWrite_ok (hbyte _)),
      bind_of_ok (readWrite_ok (reads_bytesVector.write_append hkey _)),
      bind_of_ok (readWrite_ok (reads_int4.write_append ⟨by omega, hnewInt⟩ _)),
      bind_of_ok (readWrite_ok (reads_int4.write_append ⟨by omega, htriedInt⟩ _)),
      bind_of_ok (readWrite_ok (reads_int4.write_append ⟨by omega, by omega⟩ _)),
      bind_of_ok (modifyTables_ok _), hnNew]
    refine (bind_of_ok hrun1).trans ?_
    rw [bind_of_ok (modifyTables_ok _), hnTried]
    refine (bind_of_ok hrun2).trans ?_
    rw [bind_of_ok (modifyTables_ok _), Int.toNat_natCast]
  · rw [hnew2]
    exact hnew1
  · exact hnNew2.trans hnNew1
  · rw [hnTried2, show ({ t1 with nIdCount := s.news.length } : CAddrMan).nTried =
      t1.nTried from rfl, hnTried1]
    show s.nTried - _ = _
    omega

end AddrMan

/-! ### The same number of buckets -/

namespace CAddrMan

variable {s : CAddrMan} {n : ℕ} {info : CAddrInfo} {nBuckets i : ℕ}

/-- The entries in the order of the file. -/
def entries (s : CAddrMan) : List (ℕ × CAddrInfo) := s.newEntries ++ s.triedEntries

/-- The id that an entry gets from the file. -/
def rename (s : CAddrMan) (n : ℕ) : ℕ := (s.entries.map Prod.fst).idxOf n

/-- An entry as it comes back. -/
def restored (i : ℕ) (info : CAddrInfo) : CAddrInfo := { info with nLastTry := 0, nRandomPos := i }

theorem getElem?_rename (hinfo : s.mapInfo[n]? = some info) :
    s.entries[s.rename n]? = some (n, info) := by
  have hmem : n ∈ s.entries.map Prod.fst := mem_map.mpr ⟨(n, info), mem_entries.mpr hinfo, rfl⟩
  have hlt : s.rename n < (s.entries.map Prod.fst).length := idxOf_lt_length_of_mem hmem
  have hget : (s.entries.map Prod.fst)[s.rename n]? = some n := by
    rw [getElem?_eq_getElem hlt]
    exact congrArg some (getElem_idxOf hlt)
  rw [getElem?_map, map_eq_some_iff] at hget
  obtain ⟨⟨m, info'⟩, he, rfl⟩ := hget
  have hinfo' := mem_entries.mp (mem_of_getElem? he)
  rw [hinfo] at hinfo'
  cases hinfo'
  exact he

theorem rename_eq (he : s.entries[i]? = some (n, info)) : s.rename n = i := by
  have hnodup : (s.entries.map Prod.fst).Nodup := by
    refine s.nodup_entries.map_on ?_
    rintro ⟨m, info⟩ hmem ⟨m', info'⟩ hmem' heq
    rw [mem_entries] at hmem hmem'
    obtain rfl : m = m' := heq
    rw [hmem] at hmem'
    cases hmem'
    rfl
  have hget : (s.entries.map Prod.fst)[i]? = some n := by rw [getElem?_map, he]; rfl
  obtain ⟨hlt, hget⟩ := List.getElem?_eq_some_iff.mp hget
  rw [rename, ← hget]
  exact hnodup.idxOf_getElem i hlt

theorem entries_tried (he : s.entries[i]? = some (n, info)) : info.fInTried = true ↔
    s.news.length ≤ i := by
  rw [news, length_map]
  by_cases hi : i < s.newEntries.length
  · rw [entries, getElem?_append_left hi] at he
    have := (mem_newEntries.mp (mem_of_getElem? he)).2
    simp [this, hi]
  · rw [entries, getElem?_append_right (by omega)] at he
    have := (mem_triedEntries.mp (mem_of_getElem? he)).2
    simp only [this, true_iff]
    omega

theorem getElem?_news (hi : i < s.news.length) : s.news[i]? = s.entries[i]?.map Prod.snd := by
  rw [news, length_map] at hi
  rw [news, getElem?_map, entries, getElem?_append_left hi]

theorem getElem?_trieds (hi : s.news.length ≤ i) : s.trieds[i - s.news.length]? =
    s.entries[i]?.map Prod.snd := by
  rw [news, length_map] at hi
  rw [trieds, news, length_map, getElem?_map, entries, getElem?_append_right hi]

theorem length_entries (s : CAddrMan) : s.entries.length = s.news.length + s.trieds.length := by
  rw [entries, length_append, news, trieds, length_map, length_map]

theorem newIndex_eq (hn : n ∈ s.newEntries.map Prod.fst) : s.newIndex n = s.rename n := by
  rw [newIndex, rename, entries, map_append, idxOf_append_of_mem hn]

theorem newIndex_lt (hn : n ∈ s.newEntries.map Prod.fst) : s.newIndex n < s.news.length := by
  have hlt := idxOf_lt_length_of_mem hn
  rw [length_map] at hlt
  rw [news, length_map]
  exact hlt

theorem copies_indexTable (h : Consistent nBuckets s) (n : ℕ) :
    copies (s.newIndex n) s.indexTable = copies n s.vvNew := by
  have hflat : s.indexTable.flatten = s.vvNew.flatten.map s.newIndex := by
    rw [indexTable, map_flatten]
  rw [copies, copies, hflat, List.count, countP_map, List.count]
  refine countP_congr fun m hm => ?_
  obtain ⟨vNew, hmem, hmv⟩ := mem_flatten.mp hm
  have hmid := mem_newIds h hmem hmv
  simp only [Function.comp_apply, beq_iff_eq]
  exact idxOf_inj hmid

theorem mem_indexTable (h : Consistent nBuckets s) {ids : List ℕ} (hmem : ids ∈ s.indexTable) :
    ids.Nodup ∧ ids.length ≤ 64 ∧ ∀ i ∈ ids, i < s.news.length := by
  obtain ⟨vNew, hvNew, rfl⟩ := mem_map.mp hmem
  refine ⟨(h.sets vNew hvNew).map_on fun m hm n _ heq => ?_, ?_, fun i hi => ?_⟩
  · exact (idxOf_inj (mem_newIds h hvNew hm)).mp heq
  · rw [length_map]
    exact h.size vNew (mem_append_right _ hvNew)
  · obtain ⟨n, hn, rfl⟩ := mem_map.mp hi
    exact newIndex_lt (mem_newIds h hvNew hn)

theorem copies_indexTable_le (h : Consistent nBuckets s) (i : ℕ) : copies i s.indexTable ≤ 8 := by
  rcases Nat.eq_zero_or_pos (copies i s.indexTable) with hzero | hpos
  · omega
  · obtain ⟨ids, hids, hi⟩ := copies_pos.mp hpos
    obtain ⟨vNew, hvNew, rfl⟩ := mem_map.mp hids
    obtain ⟨n, hn, rfl⟩ := mem_map.mp hi
    have hid := mem_newIds h hvNew hn
    obtain ⟨⟨m, info⟩, hmem, rfl⟩ := mem_map.mp hid
    obtain ⟨hinfo, hnew⟩ := mem_newEntries.mp hmem
    obtain ⟨-, hhigh, hcount, -⟩ := h.new m info hinfo hnew
    rw [copies_indexTable h, copies_eq_countP h.sets]
    dsimp only
    omega

end CAddrMan

/-- The tables hold the same entries, with `rename` for the ids. -/
structure Renumbered (rename : ℕ → ℕ) (s t : CAddrMan) : Prop where
  entry : ∀ (n : ℕ) (info : CAddrInfo), s.mapInfo[n]? = some info →
    t.mapInfo[rename n]? = some { info with nLastTry := 0, nRandomPos := rename n }
  onto : ∀ (i : ℕ) (info : CAddrInfo), t.mapInfo[i]? = some info → ∃ n ∈ s.mapInfo, rename n = i
  injective : ∀ m ∈ s.mapInfo, ∀ n ∈ s.mapInfo, rename m = rename n → m = n
  new : ∀ b, ∀ n ∈ s.mapInfo, n ∈ s.vvNew.getD b [] ↔ rename n ∈ t.vvNew.getD b []
  tried : ∀ b, ∀ n ∈ s.mapInfo, n ∈ s.vvTried.getD b [] ↔ rename n ∈ t.vvTried.getD b []
  nNew : t.nNew = s.nNew
  nTried : t.nTried = s.nTried

section RoundTrip

variable {s t : CAddrMan} {n b : ℕ} {info : CAddrInfo} {E : AddrEnv}

/-- Every tried entry is in the bucket of its hash. -/
def CAddrMan.Own (E : AddrEnv) (s : CAddrMan) : Prop := ∀ (n : ℕ) (info : CAddrInfo),
    s.mapInfo[n]? = some info →
  info.fInTried = true → n ∈ s.vvTried.getD (getTriedBucket E info) []

theorem CAddrMan.Own.mem_iff {nBuckets : ℕ} (h : Consistent nBuckets s) (hown : s.Own E)
    (hinfo : s.mapInfo[n]? = some info) :
    n ∈ s.vvTried.getD b [] ↔ info.fInTried = true ∧ getTriedBucket E info = b := by
  constructor
  · intro hmem
    obtain ⟨bucket, hget, hn⟩ := mem_getD.mp hmem
    have htried : info.fInTried = true := by
      by_contra hnew
      exact (h.new n info hinfo (by simpa using hnew)).2.2.2 bucket (mem_of_getElem? hget) hn
    exact ⟨htried, eq_of_copies (h.tried n info hinfo htried).2.2.1 (hown n info hinfo htried) hmem⟩
  · rintro ⟨htried, rfl⟩
    exact hown n info hinfo htried

/-- No bucket gets too many tried entries. -/
theorem CAddrMan.Own.count_le {nBuckets : ℕ} (h : Consistent nBuckets s) (hown : s.Own E) (k : ℕ) :
    (s.trieds.map (getTriedBucket E)).count k ≤ triedBucketSize := by
  rw [List.count, countP_map, CAddrMan.trieds, countP_map, countP_eq_length_filter]
  have hnodup : ((s.triedEntries.filter (((· == k) ∘ getTriedBucket E) ∘ Prod.snd)).map
    Prod.fst).Nodup := s.nodup_ids.sublist ((filter_sublist.trans filter_sublist).map Prod.fst)
  have hsub : (s.triedEntries.filter (((· == k) ∘ getTriedBucket E) ∘ Prod.snd)).map Prod.fst ⊆
    s.vvTried.getD k [] := by
    intro n hn
    obtain ⟨⟨n, info⟩, hmem, rfl⟩ := mem_map.mp hn
    obtain ⟨hmem, hk⟩ := mem_filter.mp hmem
    obtain ⟨hinfo, htried⟩ := CAddrMan.mem_triedEntries.mp hmem
    exact (CAddrMan.Own.mem_iff h hown hinfo).mpr ⟨htried, beq_iff_eq.mp hk⟩
  have hle := (hnodup.subperm hsub).length_le
  rw [length_map] at hle
  refine hle.trans ?_
  rw [getD_eq_getElem?_getD]
  cases hget : s.vvTried[k]? with
  | none => exact zero_le _
  | some bucket => exact h.size bucket (mem_append_left _ (mem_of_getElem? hget))

/-- The entries that a file gives back, when every one has its references in the table. -/
theorem recount_eq (h : Consistent newBucketCount s) {table : List (List ℕ)}
    (hsame : Same table s.indexTable) :
    recount s.news.length table (s.news.mapIdx (loadedNew newBucketCount) ++
      s.trieds.mapIdx (loadedTried s.news.length)) = s.entries.mapIdx fun i e =>
      CAddrMan.restored i e.2 := by
  refine ext_getElem? fun i => ?_
  rw [recount, getElem?_mapIdx, getElem?_mapIdx]
  by_cases hi : i < s.news.length
  · rw [getElem?_append_left (by rwa [length_mapIdx]), getElem?_mapIdx, CAddrMan.getElem?_news hi]
    cases he : s.entries[i]? with
    | none => rfl
    | some e =>
      obtain ⟨n, info⟩ := e
      have hinfo := CAddrMan.mem_entries.mp (mem_of_getElem? he)
      have hnew : info.fInTried = false := by
        rw [← not_eq_true, CAddrMan.entries_tried he]
        omega
      have hid : n ∈ s.newEntries.map Prod.fst :=
        mem_map.mpr ⟨(n, info), CAddrMan.mem_newEntries.mpr ⟨hinfo, hnew⟩, rfl⟩
      have hindex : s.newIndex n = i := (CAddrMan.newIndex_eq hid).trans (CAddrMan.rename_eq he)
      simp only [map_some, if_pos hi]
      have hcopies : (copies i table : ℤ) = info.nRefCount := by
        rw [hsame.copies_eq, ← hindex, CAddrMan.copies_indexTable h, copies_eq_countP h.sets]
        exact (h.new n info hinfo hnew).2.2.1
      simp only [loadedNew, CAddrInfo.stored, CAddrMan.restored, hcopies, hnew]
  · rw [getElem?_append_right (by rw [length_mapIdx]; omega), length_mapIdx,
      getElem?_mapIdx, CAddrMan.getElem?_trieds (by omega)]
    cases he : s.entries[i]? with
    | none => rfl
    | some e =>
      obtain ⟨n, info⟩ := e
      have hinfo := CAddrMan.mem_entries.mp (mem_of_getElem? he)
      have htried : info.fInTried = true := (CAddrMan.entries_tried he).mpr (by omega)
      have hrefs := (h.tried n info hinfo htried).2.1
      have hpos : s.news.length + (i - s.news.length) = i := by omega
      simp only [map_some, if_neg hi, loadedTried, CAddrInfo.stored,
        CAddrMan.restored, htried, hrefs, hpos]

/-- What a file gives back. -/
structure Reloaded (E : AddrEnv) (s t : CAddrMan) : Prop where
  numbered : Numbered (s.entries.mapIdx fun i e => CAddrMan.restored i e.2) t
  newTable : Same t.vvNew s.indexTable
  triedTable : t.vvTried = scatter triedBucketCount s.news.length (s.trieds.map (getTriedBucket E))
  nNew : t.nNew = s.nNew
  nTried : t.nTried = s.nTried

theorem unserialize_reloaded {E : List UInt8 → AddrEnv} (nVersion : ℤ) (nKey : List UInt8)
    (h : Consistent newBucketCount s) (hfits : s.Fits)
    (hversion : -2 ^ 31 ≤ nVersion ∧ nVersion < 2 ^ 31) (hkey : nKey.length ≤ maxSize)
    (hown : s.Own (E nKey)) (t0 : CAddrMan) (r : List UInt8) :
    ∃ t, CAddrMan.unserialize E (s.serialize newBucketCount nVersion nKey ++ r, t0) =
    .ok nKey (r, t) ∧ Reloaded (E nKey) s t := by
  obtain ⟨kept, t, hrun, hkept, -, hall, hnew, hnNew, hnTried⟩ :=
    unserialize_entries (E := E) h hfits hversion hkey (by decide) t0 r
  obtain rfl := hall (CAddrMan.Own.count_le h hown)
  rw [loadedKeys, if_pos rfl, scatter_nil] at hnew
  have hvv := eq_replicate_of_same hnew
  have hlenNews : (s.news.mapIdx (loadedNew newBucketCount)).length = s.news.length :=
    length_mapIdx
  have hlenTable : s.indexTable.length = newBucketCount := by
    rw [CAddrMan.indexTable, length_map, h.tables.2]
  obtain ⟨hnumbered, htable, -⟩ := hkept
  rw [hlenNews] at hnumbered htable
  -- nothing is in the new buckets yet
  have hstart : Numbered (recount s.news.length t.vvNew (s.news.mapIdx (loadedNew newBucketCount) ++
      s.trieds.mapIdx (loadedTried s.news.length))) t := by
    have hsame : recount s.news.length t.vvNew (s.news.mapIdx (loadedNew newBucketCount) ++
        s.trieds.mapIdx (loadedTried s.news.length)) = s.news.mapIdx (loadedNew newBucketCount) ++
        s.trieds.mapIdx (loadedTried s.news.length) := by
      refine ext_getElem? fun i => ?_
      rw [recount, getElem?_mapIdx]
      by_cases hi : i < s.news.length
      · rw [getElem?_append_left (by rwa [hlenNews]), getElem?_mapIdx, Option.map_map]
        rw [hvv, copies_replicate_nil]
        simp only [if_pos hi]
        rfl
      · simp only [if_neg hi]
        exact Option.map_id_apply
    rwa [hsame]
  have hlenAll : s.news.length ≤ (s.news.mapIdx (loadedNew newBucketCount) ++
      s.trieds.mapIdx (loadedTried s.news.length)).length := by
    rw [length_append, hlenNews]
    omega
  have hnews := CAddrMan.length_news h
  have hnewInt := hfits.nNew
  obtain ⟨t', hrun', hnum, ⟨bs, hbs, hvv'⟩, hframe⟩ := readBuckets_ok [] s.indexTable hstart
    hlenAll (by omega) (by rw [hvv, hlenTable, nil_append])
    (fun ids hmem => (CAddrMan.mem_indexTable h hmem).1)
    (fun ids hmem => (CAddrMan.mem_indexTable h hmem).2.2)
    (fun ids hmem => lt_of_le_of_lt (CAddrMan.mem_indexTable h hmem).2.1 (by decide))
    (fun i => by simpa using CAddrMan.copies_indexTable_le h i) r
  subst hvv'
  rw [recount_eq h hbs] at hnum
  refine ⟨t', ?_, hnum, hbs, hframe.vvTried.trans htable, hframe.nNew.trans hnNew, ?_⟩
  · rw [hrun]
    rw [hlenTable, length_nil] at hrun'
    rw [bind_of_ok hrun']
    rfl
  · rw [hframe.nTried, hnTried]
    exact CAddrMan.length_trieds h

namespace Reloaded

variable {i : ℕ} {x : CAddrInfo}

theorem getElem?_entries (h : Reloaded E s t) (hx : t.mapInfo[i]? = some x) :
    ∃ n info, s.entries[i]? = some (n, info) ∧ s.mapInfo[n]? = some info ∧
    x = CAddrMan.restored i info := by
  rw [h.numbered.info, getElem?_mapIdx, map_eq_some_iff] at hx
  obtain ⟨⟨n, info⟩, he, rfl⟩ := hx
  exact ⟨n, info, he, CAddrMan.mem_entries.mp (mem_of_getElem? he), rfl⟩

theorem entry (h : Reloaded E s t) (hinfo : s.mapInfo[n]? = some info) :
    t.mapInfo[s.rename n]? = some (CAddrMan.restored (s.rename n) info) := by
  rw [h.numbered.info, getElem?_mapIdx, CAddrMan.getElem?_rename hinfo]
  rfl

theorem copies_new (h : Reloaded E s t) (hs : Consistent newBucketCount s)
    (he : s.entries[i]? = some (n, info)) : copies i t.vvNew = copies n s.vvNew := by
  have hinfo := CAddrMan.mem_entries.mp (mem_of_getElem? he)
  rw [h.newTable.copies_eq]
  cases htried : info.fInTried with
  | true =>
    rw [copies_eq_zero.mpr (hs.tried n info hinfo htried).2.2.2]
    refine copies_eq_zero.mpr fun ids hmem hi => ?_
    have hlt := (CAddrMan.mem_indexTable hs hmem).2.2 i hi
    have hle := (CAddrMan.entries_tried he).mp htried
    omega
  | false =>
    have hid : n ∈ s.newEntries.map Prod.fst :=
      mem_map.mpr ⟨(n, info), CAddrMan.mem_newEntries.mpr ⟨hinfo, htried⟩, rfl⟩
    have hindex : s.newIndex n = i := (CAddrMan.newIndex_eq hid).trans (CAddrMan.rename_eq he)
    rw [← hindex, CAddrMan.copies_indexTable hs]

theorem copies_tried (h : Reloaded E s t) (he : s.entries[i]? = some (n, info)) :
    copies i t.vvTried = if info.fInTried then 1 else 0 := by
  have hlen := (List.getElem?_eq_some_iff.mp he).1
  rw [CAddrMan.length_entries] at hlen
  rw [h.triedTable, copies_scatter, length_map]
  · have htried := CAddrMan.entries_tried he
    by_cases hle : s.news.length ≤ i
    · rw [if_pos ⟨hle, hlen⟩, if_pos (htried.mpr hle)]
    · rw [if_neg fun hboth => hle hboth.1, if_neg fun hin => hle (htried.mp hin)]
  · intro k hk
    obtain ⟨info, -, rfl⟩ := mem_map.mp hk
    exact getTriedBucket_lt info

theorem consistent (h : Reloaded E s t) (hs : Consistent newBucketCount s) (hown : s.Own E) :
    Consistent newBucketCount t := by
  have hall : ∀ (i : ℕ) (x : CAddrInfo), (s.entries.mapIdx fun i e => CAddrMan.restored i e.2)[i]? =
    some x → ∃ n info, s.entries[i]? = some (n, info) ∧ s.mapInfo[n]? = some info ∧
      x = CAddrMan.restored i info := by
    intro i x hx
    rw [← h.numbered.info] at hx
    exact h.getElem?_entries hx
  have hcount : ∀ p : CAddrInfo → Bool, (∀ i info, p (CAddrMan.restored i info) = p info) →
      (s.entries.mapIdx fun i e => CAddrMan.restored i e.2).countP p =
      (s.news ++ s.trieds).countP p := by
    intro p hp
    rw [CAddrMan.news, CAddrMan.trieds, ← map_append, countP_map]
    exact countP_mapIdx fun i e => hp i e.2
  refine h.numbered.consistent (fun i x hx => ?_) (fun i x hx htried => ?_) (fun i x hx hnew => ?_)
    (fun x hx => ?_) (fun bucket hbucket i hi => ?_) (fun vNew hmem => ?_)
    (fun bucket hbucket => ?_) ⟨?_, ?_⟩ ?_ ?_
  · obtain ⟨n, info, he, hinfo, rfl⟩ := hall i x hx
    rw [h.copies_new hs he, hs.copiesNew, hinfo]
    rfl
  · obtain ⟨n, info, he, hinfo, rfl⟩ := hall i x hx
    have htried' : info.fInTried = true := htried
    obtain ⟨hsuccess, -, -, hnot⟩ := hs.tried n info hinfo htried'
    rw [h.copies_new hs he, h.copies_tried he, if_pos htried']
    exact ⟨hsuccess, rfl, copies_eq_zero.mpr hnot⟩
  · obtain ⟨n, info, he, hinfo, rfl⟩ := hall i x hx
    have hnew' : info.fInTried = false := hnew
    obtain ⟨hlow, hhigh, hcopies, -⟩ := hs.new n info hinfo hnew'
    rw [h.copies_new hs he, h.copies_tried he, hnew', copies_eq_countP hs.sets]
    refine ⟨rfl, ?_⟩
    omega
  · obtain ⟨i, hi⟩ := getElem?_of_mem hx
    obtain ⟨n, info, -, hinfo, rfl⟩ := hall i x hi
    exact hs.success n info hinfo
  · rw [length_mapIdx, CAddrMan.length_entries]
    rcases mem_append.mp hbucket with hmem | hmem
    · rw [h.triedTable] at hmem
      obtain ⟨b, hb⟩ := getElem?_of_mem hmem
      obtain ⟨j, rfl, hj⟩ := (mem_scatter hb).mp hi
      have := (List.getElem?_eq_some_iff.mp hj).1
      rw [length_map] at this
      omega
    · obtain ⟨ids, hids, hperm⟩ := h.newTable.mem hmem
      have := (CAddrMan.mem_indexTable hs hids).2.2 i (hperm.mem_iff.mp hi)
      omega
  · obtain ⟨ids, hids, hperm⟩ := h.newTable.mem hmem
    exact hperm.nodup_iff.mpr (CAddrMan.mem_indexTable hs hids).1
  · rcases mem_append.mp hbucket with hmem | hmem
    · rw [h.triedTable] at hmem
      obtain ⟨b, hb⟩ := getElem?_of_mem hmem
      rw [length_of_scatter hb]
      exact CAddrMan.Own.count_le hs hown b
    · obtain ⟨ids, hids, hperm⟩ := h.newTable.mem hmem
      rw [hperm.length_eq]
      exact (CAddrMan.mem_indexTable hs hids).2.1
  · rw [h.triedTable, length_scatter]
  · rw [h.newTable.length_eq, CAddrMan.indexTable, length_map, hs.tables.2]
  · rw [hcount _ fun _ _ => rfl, h.nTried, ← CAddrMan.length_trieds hs, CAddrMan.countP_tried]
  · rw [hcount _ fun _ _ => rfl, h.nNew, ← CAddrMan.length_news hs, CAddrMan.countP_new]

theorem rename_injective {m : ℕ} (hm : m ∈ s.mapInfo) (hn : n ∈ s.mapInfo)
    (heq : s.rename m = s.rename n) : m = n := by
  rw [Std.TreeMap.mem_iff_isSome_getElem?] at hm hn
  obtain ⟨info, hinfo⟩ := isSome_iff_exists.mp hm
  obtain ⟨info', hinfo'⟩ := isSome_iff_exists.mp hn
  have hget := CAddrMan.getElem?_rename hinfo
  rw [heq, CAddrMan.getElem?_rename hinfo'] at hget
  cases hget
  rfl

theorem renumbered (h : Reloaded E s t) (hs : Consistent newBucketCount s) (hown : s.Own E) :
    Renumbered s.rename s t where
  entry n info hinfo := h.entry hinfo
  onto i x hx := by
    obtain ⟨n, info, he, hinfo, -⟩ := h.getElem?_entries hx
    refine ⟨n, ?_, CAddrMan.rename_eq he⟩
    rw [Std.TreeMap.mem_iff_isSome_getElem?, hinfo]
    rfl
  injective m hm n hn heq := rename_injective hm hn heq
  new b n hn := by
    rw [h.newTable.mem_getD_iff, mem_getD, mem_getD]
    simp only [CAddrMan.indexTable, getElem?_map, map_eq_some_iff]
    constructor
    · rintro ⟨vNew, hget, hmem⟩
      have hid := CAddrMan.mem_newIds hs (mem_of_getElem? hget) hmem
      exact ⟨_, ⟨vNew, hget, rfl⟩, mem_map.mpr ⟨n, hmem, CAddrMan.newIndex_eq hid⟩⟩
    · rintro ⟨ids, ⟨vNew, hget, rfl⟩, hmem⟩
      obtain ⟨m, hm, heq⟩ := mem_map.mp hmem
      have hid := CAddrMan.mem_newIds hs (mem_of_getElem? hget) hm
      obtain ⟨info, hinfo⟩ :=
        hs.known vNew (mem_append_right _ (mem_of_getElem? hget)) m hm
      have hknown : m ∈ s.mapInfo := by
        rw [Std.TreeMap.mem_iff_isSome_getElem?, hinfo]
        rfl
      rw [CAddrMan.newIndex_eq hid] at heq
      exact ⟨vNew, hget, rename_injective hknown hn heq ▸ hm⟩
  tried b n hn := by
    rw [Std.TreeMap.mem_iff_isSome_getElem?] at hn
    obtain ⟨info, hinfo⟩ := isSome_iff_exists.mp hn
    have he := CAddrMan.getElem?_rename hinfo
    have htried := CAddrMan.entries_tried he
    rw [CAddrMan.Own.mem_iff hs hown hinfo, mem_getD, htried]
    constructor
    · rintro ⟨hle, rfl⟩
      have hlt : getTriedBucket E info < (scatter triedBucketCount s.news.length
        (s.trieds.map (getTriedBucket E))).length := by
        rw [length_scatter]
        exact getTriedBucket_lt info
      have hget := getElem?_eq_getElem hlt
      refine ⟨_, (congrArg (·[getTriedBucket E info]?) h.triedTable).trans hget,
        (mem_scatter hget).mpr ⟨s.rename n - s.news.length, by omega, ?_⟩⟩
      rw [getElem?_map, CAddrMan.getElem?_trieds hle, he]
      rfl
    · rintro ⟨vTried, hget, hmem⟩
      rw [h.triedTable] at hget
      obtain ⟨j, hj, hkey⟩ := (mem_scatter hget).mp hmem
      have hle : s.news.length ≤ s.rename n := by omega
      have hjeq : j = s.rename n - s.news.length := by omega
      rw [hjeq, getElem?_map, CAddrMan.getElem?_trieds hle, he] at hkey
      exact ⟨hle, Option.some.inj hkey⟩
  nNew := h.nNew
  nTried := h.nTried

end Reloaded

/-- **A file is read back to the same books**, with other ids and without the times of the last
tries. -/
theorem peers_roundTrip {E : List UInt8 → AddrEnv} {nVersion : ℤ} {nKey : List UInt8}
    (h : Consistent newBucketCount s) (hfits : s.Fits)
    (hversion : -2 ^ 31 ≤ nVersion ∧ nVersion < 2 ^ 31) (hkey : nKey.length ≤ maxSize)
    (hown : s.Own (E nKey)) (t0 : CAddrMan) (r : List UInt8) :
    ∃ rename t, CAddrMan.unserialize E (s.serialize newBucketCount nVersion nKey ++ r, t0) =
    .ok nKey (r, t) ∧
      Renumbered rename s t ∧ Consistent newBucketCount t ∧ AddrMan.check t = 0 := by
  obtain ⟨t, hrun, hreloaded⟩ := unserialize_reloaded nVersion nKey h hfits hversion hkey hown t0 r
  have hconsistent := hreloaded.consistent h hown
  refine ⟨s.rename, t, hrun, hreloaded.renumbered h hown, hconsistent,
    hconsistent.check_ok fun n x hx => ?_⟩
  obtain ⟨m, info, -, -, rfl⟩ := hreloaded.getElem?_entries hx
  exact le_rfl

end RoundTrip

/-! ### Three entries -/

/-- An address in two new buckets that was tried once, without success, another one in the first of
them, and one that was connected to. -/
def triedOnce : CAddrInfo :=
  { CAddrInfo.init ⟨⟨7, 22448⟩, 1, 900, 0⟩ 7 with
    nLastTry := 1000, nAttempts := 1, nRefCount := 2, nRandomPos := 0 }
def heardOf : CAddrInfo :=
  { CAddrInfo.init ⟨⟨8, 22448⟩, 1, 900, 0⟩ 7 with nRefCount := 1, nRandomPos := 1 }
def connectedTo : CAddrInfo :=
  { CAddrInfo.init ⟨⟨9, 22448⟩, 1, 900, 0⟩ 7 with
    nLastSuccess := 1000, fInTried := true, nRandomPos := 2 }

/-- The books of a program with `nBuckets + 2` new buckets that knows them. -/
def threeEntries (nBuckets : ℕ) : CAddrMan where
  nIdCount := 3
  mapInfo :=
    (((∅ : Std.TreeMap ℕ CAddrInfo).insert 0 triedOnce).insert 1 heardOf).insert 2 connectedTo
  mapAddr := (((∅ : Std.TreeMap CNetAddr ℕ).insert 7 0).insert 8 1).insert 9 2
  vRandom := [0, 1, 2]
  nTried := 1
  vvTried := [2] :: replicate 255 []
  nNew := 2
  vvNew := [0, 1] :: [0] :: replicate nBuckets []

theorem threeEntries_numbered (nBuckets : ℕ) :
    Numbered [triedOnce, heardOf, connectedTo] (threeEntries nBuckets) := by
  have h1 : Numbered [triedOnce] { CAddrMan.empty with
      mapInfo := (∅ : Std.TreeMap ℕ CAddrInfo).insert 0 triedOnce
      mapAddr := (∅ : Std.TreeMap CNetAddr ℕ).insert 7 0
      vRandom := [0] } :=
    (Numbered.nil (t := CAddrMan.empty) rfl rfl rfl).concat not_mem_nil rfl rfl rfl rfl
  have h2 : Numbered [triedOnce, heardOf] { CAddrMan.empty with
      mapInfo := ((∅ : Std.TreeMap ℕ CAddrInfo).insert 0 triedOnce).insert 1 heardOf
      mapAddr := ((∅ : Std.TreeMap CNetAddr ℕ).insert 7 0).insert 8 1
      vRandom := [0, 1] } := h1.concat (x := heardOf) (by decide) rfl rfl rfl rfl
  exact h2.concat (x := connectedTo) (by decide) rfl rfl rfl rfl

theorem threeEntries_consistent (nBuckets : ℕ) :
    Consistent (nBuckets + 2) (threeEntries nBuckets) := by
  have hnum := threeEntries_numbered nBuckets
  have hnew : ∀ n, copies n (threeEntries nBuckets).vvNew = [0, 1].count n + [0].count n := by
    intro n
    rw [threeEntries, copies_cons, copies_cons, copies_replicate_nil, Nat.add_zero]
  have htried : ∀ n, copies n (threeEntries nBuckets).vvTried = [2].count n := by
    intro n
    rw [threeEntries, copies_cons, copies_replicate_nil, Nat.add_zero]
  have hbucket : ∀ bucket ∈ (threeEntries nBuckets).vvTried ++ (threeEntries nBuckets).vvNew,
      bucket = [] ∨ bucket = [2] ∨ bucket = [0, 1] ∨ bucket = [0] := by
    intro bucket hmem
    simp only [threeEntries, mem_append, mem_cons, mem_replicate] at hmem
    tauto
  refine hnum.consistent (fun i x hx => ?_) (fun i x hx => ?_) (fun i x hx => ?_) (by decide)
    (fun bucket hmem i hi => ?_) (fun vNew hmem => ?_) (fun bucket hmem => ?_) ⟨?_, ?_⟩ rfl rfl
  · rw [hnew]
    rcases i with _ | _ | _ | i <;> cases hx <;> decide
  · rw [hnew, htried]
    rcases i with _ | _ | _ | i <;> cases hx <;> decide
  · rw [hnew, htried]
    rcases i with _ | _ | _ | i <;> cases hx <;> decide
  · rcases hbucket bucket hmem with rfl | rfl | rfl | rfl <;> simp at hi ⊢ <;> omega
  · rcases hbucket vNew (mem_append_right _ hmem) with rfl | rfl | rfl | rfl <;> decide
  · rcases hbucket bucket hmem with rfl | rfl | rfl | rfl <;> decide
  · show ([2] :: replicate 255 ([] : List ℕ)).length = 256
    rw [length_cons, length_replicate]
  · show ([0, 1] :: [0] :: replicate nBuckets []).length = _
    rw [length_cons, length_cons, length_replicate]

theorem threeEntries_fits (nBuckets : ℕ) : (threeEntries nBuckets).Fits := by
  refine ⟨fun n info hinfo => ?_, show (2 : ℤ) < 2 ^ 31 by decide, show (1 : ℤ) < 2 ^ 31 by decide⟩
  rw [(threeEntries_numbered nBuckets).info] at hinfo
  rcases n with _ | _ | _ | n <;> cases hinfo <;>
    exact ⟨by decide, by decide, by decide, by decide, by decide⟩

theorem threeEntries_own (nBuckets : ℕ) : (threeEntries nBuckets).Own .constant := by
  intro n info hinfo htried
  rw [(threeEntries_numbered nBuckets).info] at hinfo
  rcases n with _ | _ | _ | n <;> cases hinfo <;> cases htried
  exact mem_cons_self

theorem peers_roundTrip_threeEntries : ∃ rename t, CAddrMan.unserialize (fun _ => .constant)
      ((threeEntries 1022).serialize newBucketCount 70000 [1, 2, 3] ++ [], .empty) =
      .ok [1, 2, 3] ([], t) ∧
    Renumbered rename (threeEntries 1022) t ∧ Consistent newBucketCount t ∧ AddrMan.check t = 0 :=
  peers_roundTrip (threeEntries_consistent 1022) (threeEntries_fits 1022) (by decide) (by decide)
    (threeEntries_own 1022) .empty []

/-- The time of the last try is not in the file. -/
theorem peers_lastTry_lost :
    ¬ ∀ (E : List UInt8 → AddrEnv) (nVersion : ℤ) (nKey : List UInt8) (s : CAddrMan),
    Consistent newBucketCount s → s.Fits → -2 ^ 31 ≤ nVersion ∧ nVersion < 2 ^ 31 →
    nKey.length ≤ maxSize → s.Own (E nKey) → ∃ (rename : ℕ → ℕ) (t : CAddrMan),
        CAddrMan.unserialize E (s.serialize newBucketCount nVersion nKey, .empty) =
        .ok nKey ([], t) ∧
          ∀ (n : ℕ) (info : CAddrInfo), s.mapInfo[n]? = some info → ∃ info' : CAddrInfo,
            t.mapInfo[rename n]? = some info' ∧ info'.ip = info.ip ∧ info'.nLastTry =
            info.nLastTry := by
  intro hall
  obtain ⟨rename, t, hrun, hkeeps⟩ := hall (fun _ => .constant) 70000 [1, 2, 3] (threeEntries 1022)
    (threeEntries_consistent 1022) (threeEntries_fits 1022) (by decide) (by decide)
    (threeEntries_own 1022)
  obtain ⟨t', hrun', hreloaded⟩ := unserialize_reloaded (E := fun _ => .constant) 70000 [1, 2, 3]
    (threeEntries_consistent 1022) (threeEntries_fits 1022) (by decide) (by decide)
    (threeEntries_own 1022) .empty []
  rw [append_nil, hrun] at hrun'
  cases hrun'
  obtain ⟨info', hinfo', -, hlast⟩ := hkeeps 0 triedOnce ((threeEntries_numbered 1022).info 0)
  obtain ⟨n, info, -, -, rfl⟩ := hreloaded.getElem?_entries hinfo'
  cases hlast

/-! ### Another number of buckets -/

section Rebuilt

variable {s t : CAddrMan} {n i b nBuckets : ℕ} {info : CAddrInfo}

/-- The number of new entries that belong into a new bucket by their own sources. -/
def CAddrMan.newCount (E : AddrEnv) (s : CAddrMan) (b : ℕ) : ℕ :=
  s.mapInfo.toList.countP fun e => !e.2.fInTried && getNewBucket E e.2 e.2.source == b

/-- Every new entry is still there. -/
def KeepsNew (s t : CAddrMan) : Prop := ∀ (n : ℕ) (info : CAddrInfo), s.mapInfo[n]? = some info →
  info.fInTried = false →
    ∃ i : ℕ, t.mapInfo[i]? = some { info with nLastTry := 0, nRandomPos := i, nRefCount := 1 }

theorem newCount_eq (E : AddrEnv) (s : CAddrMan) (b : ℕ) : s.newCount E b =
    (s.news.map fun info => getNewBucket E info info.source).count b := by
  rw [List.count, countP_map, CAddrMan.news, countP_map, CAddrMan.newEntries,
    countP_filter, CAddrMan.newCount]
  refine countP_congr fun e _ => ?_
  rw [Bool.and_comm]
  rfl

/-- What is rebuilt from a file with another number of buckets. -/
structure RebuiltFrom (nBuckets : ℕ) (E : AddrEnv) (s : CAddrMan) (kept : List CAddrInfo)
    (t : CAddrMan) : Prop where
  numbered : Numbered (s.news.mapIdx (loadedNew nBuckets) ++
    kept.mapIdx (loadedTried s.news.length)) t
  newTable : Same t.vvNew
    (scatter newBucketCount 0 (s.news.map fun info => getNewBucket E info info.source))
  triedTable : t.vvTried = scatter triedBucketCount s.news.length (kept.map (getTriedBucket E))
  size : ∀ k, (kept.map (getTriedBucket E)).count k ≤ triedBucketSize
  sublist : kept.Sublist s.trieds
  nNew : t.nNew = s.nNew
  nTried : t.nTried = kept.length

theorem unserialize_rebuilt {E : List UInt8 → AddrEnv} {nVersion : ℤ} {nKey : List UInt8}
    (h : Consistent nBuckets s) (hfits : s.Fits) (hversion : -2 ^ 31 ≤ nVersion ∧ nVersion < 2 ^ 31)
    (hkey : nKey.length ≤ maxSize) (hbuckets : nBuckets < 2 ^ 31) (hne : nBuckets ≠ newBucketCount)
    (t0 : CAddrMan) (r : List UInt8) : (nBuckets ≤ newBucketCount → ∃ kept t,
      CAddrMan.unserialize E (s.serialize nBuckets nVersion nKey ++ r, t0) = .ok nKey (r, t) ∧
        RebuiltFrom nBuckets (E nKey) s kept t) ∧
      (newBucketCount < nBuckets → ∀ nKey' st,
        CAddrMan.unserialize E (s.serialize nBuckets nVersion nKey ++ r, t0) ≠ .ok nKey' st) := by
  obtain ⟨kept, t, hrun, ⟨hnumbered, htable, hsize⟩, hsub, -, hnew, hnNew, hnTried⟩ :=
    unserialize_entries (E := E) h hfits hversion hkey hbuckets t0 r
  have hneInt : (nBuckets : ℤ) ≠ newBucketCount := by exact_mod_cast hne
  have hlenNews : (s.news.mapIdx (loadedNew nBuckets)).length = s.news.length := length_mapIdx
  have hlenTable : s.indexTable.length = nBuckets := by
    rw [CAddrMan.indexTable, length_map, h.tables.2]
  rw [loadedKeys, if_neg hneInt] at hnew
  rw [hlenNews] at hnumbered htable
  have hvv : t.vvNew.length = newBucketCount := by rw [hnew.length_eq, length_scatter]
  constructor
  · intro hle
    have hnews := CAddrMan.length_news h
    have htrieds := CAddrMan.length_trieds h
    have hnewInt := hfits.nNew
    have htriedInt := hfits.nTried
    have hkeptLe := hsub.length_le
    obtain ⟨t', hrun', hnum, hvv', hframe⟩ :=
      readBuckets_skip (b := 0) s.indexTable hneInt hnumbered
      (by rw [length_append, hlenNews, length_mapIdx]; omega) (fun ids hmem i hi => by
        have := (CAddrMan.mem_indexTable h hmem).2.2 i hi
        rw [length_append, hlenNews]
        omega)
      (fun ids hmem => lt_of_le_of_lt (CAddrMan.mem_indexTable h hmem).2.1 (by decide))
      (by rw [hlenTable, hvv]; omega) r
    refine ⟨kept, t', ?_, hnum, hvv' ▸ hnew, hframe.vvTried.trans htable, hsize, hsub,
      hframe.nNew.trans hnNew, hframe.nTried.trans hnTried⟩
    rw [hlenTable] at hrun'
    rw [hrun, bind_of_ok hrun']
    rfl
  · intro hlt nKey' st hok
    rw [hrun] at hok
    obtain ⟨u, st', hbuckets', -⟩ := bind_eq_ok.mp hok
    have := readBuckets_bound hbuckets'
    omega

namespace RebuiltFrom

variable {E : AddrEnv} {kept : List CAddrInfo}

theorem keepsNew (h : RebuiltFrom nBuckets E s kept t) (hne : nBuckets ≠ newBucketCount) :
    KeepsNew s t := by
  intro n info hinfo hnew
  have he := CAddrMan.getElem?_rename hinfo
  have hlt : s.rename n < s.news.length := by
    rw [← not_le, ← CAddrMan.entries_tried he, hnew]
    exact false_ne_true
  have hneInt : (nBuckets : ℤ) ≠ newBucketCount := by exact_mod_cast hne
  refine ⟨s.rename n, ?_⟩
  rw [h.numbered.info, getElem?_append_left (by rwa [length_mapIdx]),
    getElem?_mapIdx, CAddrMan.getElem?_news hlt, he]
  simp only [map_some, loadedNew, if_neg hneInt, CAddrInfo.stored, hnew]

/-- The rebuilt books are consistent exactly if no bucket is too large. -/
theorem consistent_iff (h : RebuiltFrom nBuckets E s kept t) (hs : Consistent nBuckets s)
    (hne : nBuckets ≠ newBucketCount) :
    Consistent newBucketCount t ↔ ∀ b, s.newCount E b ≤ newBucketSize := by
  have hneInt : (nBuckets : ℤ) ≠ newBucketCount := by exact_mod_cast hne
  have hkeys : ∀ k ∈ s.news.map fun info => getNewBucket E info info.source,
    k < newBucketCount := by
    intro k hk
    obtain ⟨info, -, rfl⟩ := mem_map.mp hk
    exact getNewBucket_lt info _
  constructor
  · intro hconsistent b
    rw [newCount_eq]
    by_cases hb : b < newBucketCount
    · have hget : (scatter newBucketCount 0 (s.news.map fun info =>
        getNewBucket E info info.source))[b]? = _ :=
        getElem?_scatter hb
      obtain ⟨bucket, hbucket, hperm⟩ := h.newTable.symm.getElem? hget
      rw [← length_of_scatter hget, hperm.length_eq]
      exact hconsistent.size bucket (mem_append_right _ (mem_of_getElem? hbucket))
    · rw [count_eq_zero.mpr fun hmem => hb (hkeys b hmem)]
      exact zero_le _
  · intro hcount
    have hlenNews : (s.news.mapIdx (loadedNew nBuckets)).length = s.news.length :=
      length_mapIdx
    have hcopiesNew : ∀ i, copies i t.vvNew = if i < s.news.length then 1 else 0 := by
      intro i
      rw [h.newTable.copies_eq, copies_scatter hkeys, length_map]
      simp
    have hcopiesTried : ∀ i, copies i t.vvTried =
        if s.news.length ≤ i ∧ i < s.news.length + kept.length then 1 else 0 := by
      intro i
      rw [h.triedTable, copies_scatter, length_map]
      intro k hk
      obtain ⟨info, -, rfl⟩ := mem_map.mp hk
      exact getTriedBucket_lt info
    have hall : ∀ (i : ℕ) (x : CAddrInfo),
        (s.news.mapIdx (loadedNew nBuckets) ++ kept.mapIdx (loadedTried s.news.length))[i]? =
        some x → (i < s.news.length ∧ ∃ info ∈ s.news, x = loadedNew nBuckets i info) ∨
            (s.news.length ≤ i ∧ i < s.news.length + kept.length ∧
              ∃ info ∈ kept, x = loadedTried s.news.length (i - s.news.length) info) := by
      intro i x hx
      by_cases hi : i < s.news.length
      · rw [getElem?_append_left (by rwa [hlenNews]), getElem?_mapIdx, map_eq_some_iff] at hx
        obtain ⟨info, hinfo, rfl⟩ := hx
        exact .inl ⟨hi, info, mem_of_getElem? hinfo, rfl⟩
      · rw [getElem?_append_right (by omega), hlenNews, getElem?_mapIdx, map_eq_some_iff] at hx
        obtain ⟨info, hinfo, rfl⟩ := hx
        have := (List.getElem?_eq_some_iff.mp hinfo).1
        exact .inr ⟨by omega, by omega, info, mem_of_getElem? hinfo, rfl⟩
    have hsuccess : ∀ info ∈ kept, info.nLastSuccess ≠ 0 ∧ 0 ≤ info.nLastSuccess := by
      intro info hmem
      obtain ⟨n, hinfo, htried⟩ := CAddrMan.mem_trieds (h.sublist.mem hmem)
      exact ⟨(hs.tried n info hinfo htried).1, hs.success n info hinfo⟩
    refine h.numbered.consistent (fun i x hx => ?_) (fun i x hx htried => ?_)
      (fun i x hx hnew => ?_) (fun x hx => ?_) (fun bucket hbucket i hi => ?_) (fun vNew hmem => ?_)
      (fun bucket hbucket => ?_) ⟨?_, ?_⟩ ?_ ?_
    · rw [hcopiesNew]
      rcases hall i x hx with ⟨hi, info, -, rfl⟩ | ⟨hi, -, info, -, rfl⟩
      · simp only [loadedNew, if_neg hneInt, if_pos hi]
        rfl
      · rw [if_neg (by omega)]
        rfl
    · rw [hcopiesNew, hcopiesTried]
      rcases hall i x hx with ⟨hi, info, -, rfl⟩ | ⟨hi, hi', info, hmem, rfl⟩
      · cases htried
      · exact ⟨(hsuccess info hmem).1, if_pos ⟨hi, hi'⟩, if_neg (by omega)⟩
    · rw [hcopiesNew, hcopiesTried]
      rcases hall i x hx with ⟨hi, info, -, rfl⟩ | ⟨hi, hi', info, hmem, rfl⟩
      · rw [if_neg (by omega), if_pos hi]
        decide
      · cases hnew
    · obtain ⟨i, hi⟩ := getElem?_of_mem hx
      rcases hall i x hi with ⟨-, info, hmem, rfl⟩ | ⟨-, -, info, hmem, rfl⟩
      · obtain ⟨n, hinfo, -⟩ := CAddrMan.mem_news hmem
        exact hs.success n info hinfo
      · exact (hsuccess info hmem).2
    · rw [length_append, hlenNews, length_mapIdx]
      by_contra hout
      have hpos : 0 < copies i t.vvTried ∨ 0 < copies i t.vvNew := by
        rcases mem_append.mp hbucket with hmem | hmem
        · exact .inl (copies_pos.mpr ⟨bucket, hmem, hi⟩)
        · exact .inr (copies_pos.mpr ⟨bucket, hmem, hi⟩)
      rw [hcopiesNew, hcopiesTried, if_neg (by omega), if_neg (by omega)] at hpos
      omega
    · obtain ⟨c, hc, hperm⟩ := h.newTable.mem hmem
      exact hperm.nodup_iff.mpr (nodup_of_scatter hc)
    · rcases mem_append.mp hbucket with hmem | hmem
      · rw [h.triedTable] at hmem
        obtain ⟨b, hb⟩ := getElem?_of_mem hmem
        rw [length_of_scatter hb]
        exact h.size b
      · obtain ⟨b, hb⟩ := getElem?_of_mem hmem
        obtain ⟨c, hc, hperm⟩ := h.newTable.getElem? hb
        rw [hperm.length_eq, length_of_scatter hc, ← newCount_eq]
        exact hcount b
    · rw [h.triedTable, length_scatter]
    · rw [h.newTable.length_eq, length_scatter]
    · rw [h.nTried, countP_append, countP_mapIdx (q := fun _ => false) fun _ _ => rfl,
        countP_mapIdx (q := fun _ => true) fun _ _ => rfl]
      simp
    · rw [h.nNew, ← CAddrMan.length_news hs, countP_append,
        countP_mapIdx (q := fun _ => true) fun _ _ => rfl,
        countP_mapIdx (q := fun _ => false) fun _ _ => rfl]
      simp

end RebuiltFrom

/-- **When the number of new buckets is another one**, the books are rebuilt exactly if the file has
no more new buckets than this program, and no bucket gets more entries than fit into it. -/
theorem peers_rebuilt {E : List UInt8 → AddrEnv} {nVersion : ℤ} {nKey : List UInt8}
    (h : Consistent nBuckets s) (hfits : s.Fits) (hversion : -2 ^ 31 ≤ nVersion ∧ nVersion < 2 ^ 31)
    (hkey : nKey.length ≤ maxSize) (hbuckets : nBuckets < 2 ^ 31) (hne : nBuckets ≠ newBucketCount)
    (t0 : CAddrMan) (r : List UInt8) :
    (∃ t, CAddrMan.unserialize E (s.serialize nBuckets nVersion nKey ++ r, t0) = .ok nKey (r, t) ∧
    KeepsNew s t ∧ t.nNew = s.nNew ∧ Consistent newBucketCount t) ↔
      nBuckets ≤ newBucketCount ∧ ∀ b, s.newCount (E nKey) b ≤ newBucketSize := by
  obtain ⟨hsmaller, hlarger⟩ := unserialize_rebuilt (E := E) h hfits hversion hkey hbuckets hne t0 r
  constructor
  · rintro ⟨t, hrun, -, -, hconsistent⟩
    have hle : nBuckets ≤ newBucketCount := by
      by_contra hgt
      exact hlarger (by omega) _ _ hrun
    obtain ⟨kept, t', hrun', hrebuilt⟩ := hsmaller hle
    rw [hrun] at hrun'
    cases hrun'
    exact ⟨hle, (hrebuilt.consistent_iff h hne).mp hconsistent⟩
  · rintro ⟨hle, hcount⟩
    obtain ⟨kept, t, hrun, hrebuilt⟩ := hsmaller hle
    exact ⟨t, hrun, hrebuilt.keepsNew hne, hrebuilt.nNew,
      (hrebuilt.consistent_iff h hne).mpr hcount⟩

theorem peers_rebuilt_threeEntries : ∃ t, CAddrMan.unserialize (fun _ => .constant)
      ((threeEntries 510).serialize 512 70000 [1, 2, 3] ++ [], .empty) = .ok [1, 2, 3] ([], t) ∧
    KeepsNew (threeEntries 510) t ∧ t.nNew = (threeEntries 510).nNew ∧
      Consistent newBucketCount t := by
  refine (peers_rebuilt (threeEntries_consistent 510) (threeEntries_fits 510) (by decide)
    (by decide) (by decide) (by decide) .empty []).mpr ⟨by decide, fun b => ?_⟩
  refine (countP_le_length).trans ?_
  decide

/-- A file with one new bucket more than the table has: the walk over its buckets leaves the
table. -/
theorem peers_table_left : Consistent 1025 (threeEntries 1023) ∧ (threeEntries 1023).Fits ∧
    ∀ t0 nKey st, CAddrMan.unserialize (fun _ => .constant)
      ((threeEntries 1023).serialize 1025 70000 [1, 2, 3] ++ [], t0) ≠ .ok nKey st :=
  ⟨threeEntries_consistent 1023, threeEntries_fits 1023, fun t0 =>
    (unserialize_rebuilt (threeEntries_consistent 1023) (threeEntries_fits 1023) (by decide)
      (by decide) (by decide) (by decide) t0 []).2 (by decide)⟩

end Rebuilt

end Espers
