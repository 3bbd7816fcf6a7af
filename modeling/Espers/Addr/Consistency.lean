import Espers.Addr.Operations

/-!
# The consistency of the address manager

* `Consistent nBuckets s` : the conditions that `Check_` asks for, as statements about the tables.
* `AddrMan.Settled.consistent` : settled books are consistent.
* `Consistent.check_ok` : `Check_` finds nothing in consistent books, when no time is negative.
* `addrMan_consistent` : **every state that is reached** is consistent, and no operation on it
  fails.
-/

namespace Espers

open Exec Mutual Buckets List Prod Nat Int

/-- The conditions of `Check_` for a table of `nBuckets` new buckets, but for the times of the last
tries. -/
structure Consistent (nBuckets : ℕ) (s : CAddrMan) : Prop where
  /-- `vRandom` lists the ids. -/
  random : s.vRandom.Perm s.mapInfo.keys
  position : ∀ n (info : CAddrInfo), s.mapInfo[n]? = some info →
    ∃ i : ℕ, info.nRandomPos = i ∧ s.vRandom[i]? = some n
  inverse : ∀ (a : CNetAddr) n, s.mapAddr[a]? = some n ↔
    ∃ info : CAddrInfo, s.mapInfo[n]? = some info ∧ info.ip = a
  tried : ∀ n (info : CAddrInfo), s.mapInfo[n]? = some info → info.fInTried = true →
    info.nLastSuccess ≠ 0 ∧ info.nRefCount = 0 ∧ copies n s.vvTried = 1 ∧ ∀ vNew ∈ s.vvNew, n ∉ vNew
  new : ∀ n (info : CAddrInfo), s.mapInfo[n]? = some info → info.fInTried = false →
    1 ≤ info.nRefCount ∧ info.nRefCount ≤ 8 ∧ (s.vvNew.countP (n ∈ ·) : ℤ) = info.nRefCount ∧
      ∀ vTried ∈ s.vvTried, n ∉ vTried
  known : ∀ bucket ∈ s.vvTried ++ s.vvNew, ∀ n ∈ bucket, ∃ info, s.mapInfo[n]? = some info
  success : ∀ (n : ℕ) (info : CAddrInfo), s.mapInfo[n]? = some info → 0 ≤ info.nLastSuccess
  nTried : (s.mapInfo.toList.countP (·.2.fInTried) : ℤ) = s.nTried
  nNew : (s.mapInfo.toList.countP (!·.2.fInTried) : ℤ) = s.nNew
  sets : ∀ vNew ∈ s.vvNew, vNew.Nodup
  size : ∀ bucket ∈ s.vvTried ++ s.vvNew, bucket.length ≤ 64
  tables : s.vvTried.length = triedBucketCount ∧ s.vvNew.length = nBuckets

theorem CAddrMan.nodup_ids (s : CAddrMan) : (s.mapInfo.toList.map Prod.fst).Nodup := by
  rw [Std.TreeMap.map_fst_toList_eq_keys]
  exact Std.TreeMap.nodup_keys

namespace AddrMan

variable {s : CAddrMan} {n : ℕ} {info : CAddrInfo}

/-- The ids of the tried entries are what is in the tried buckets. -/
theorem triedIds_perm
    (hknown : ∀ n (info : CAddrInfo), s.mapInfo[n]? = some info →
      copies n s.vvTried = if info.fInTried then 1 else 0)
    (hnone : ∀ n, s.mapInfo[n]? = none → copies n s.vvTried = 0) :
    ((s.mapInfo.toList.filter (·.2.fInTried)).map Prod.fst).Perm s.vvTried.flatten := by
  have hnodup : ((s.mapInfo.toList.filter (·.2.fInTried)).map Prod.fst).Nodup :=
    s.nodup_ids.sublist (filter_sublist.map Prod.fst)
  have hnodup' : s.vvTried.flatten.Nodup := by
    rw [nodup_iff_count_le_one]
    intro n
    show copies n s.vvTried ≤ 1
    cases hinfo : s.mapInfo[n]? with
    | none => exact (hnone n hinfo).le.trans (zero_le _)
    | some info =>
      rw [hknown n info hinfo]
      split_ifs <;> decide
  refine (perm_ext_iff_of_nodup hnodup hnodup').mpr fun n => ?_
  rw [mem_map, ← count_pos_iff, show s.vvTried.flatten.count n = copies n s.vvTried from rfl]
  constructor
  · rintro ⟨⟨m, info⟩, hmem, rfl⟩
    obtain ⟨hmem, htried⟩ := mem_filter.mp hmem
    rw [hknown m info (Std.TreeMap.mem_toList_iff_getElem?_eq_some.mp hmem), if_pos htried]
    exact one_pos
  · intro hpos
    cases hinfo : s.mapInfo[n]? with
    | none => exact absurd hpos (by rw [hnone n hinfo]; exact lt_irrefl 0)
    | some info =>
      rw [hknown n info hinfo] at hpos
      refine ⟨(n, info),
        mem_filter.mpr ⟨Std.TreeMap.mem_toList_iff_getElem?_eq_some.mpr hinfo, ?_⟩, rfl⟩
      by_contra hfalse
      rw [if_neg hfalse] at hpos
      exact lt_irrefl 0 hpos

/-- The addresses of a book are the tried and the new ones. -/
theorem length_eq_tried_add_new (h : s.vRandom.Perm s.mapInfo.keys) : s.vRandom.length =
    s.mapInfo.toList.countP (·.2.fInTried) + s.mapInfo.toList.countP (!·.2.fInTried) := by
  rw [h.length_eq, ← Std.TreeMap.map_fst_toList_eq_keys, length_map,
    length_eq_countP_add_countP (fun e : ℕ × CAddrInfo => e.2.fInTried)]
  simp only [Bool.not_eq_true, Bool.decide_eq_false]

namespace Settled

theorem nodup (h : Settled s) : s.vRandom.Nodup := by
  rw [nodup_iff_getElem?_ne_getElem?]
  intro i j hij hj heq
  have hget := getElem?_eq_getElem hj
  obtain ⟨info, hinfo, hpos⟩ := h.atPosition (i := j) hget
  obtain ⟨info', hinfo', hpos'⟩ := h.atPosition (i := i) (heq.trans hget)
  rw [hinfo] at hinfo'
  cases hinfo'
  omega

theorem random (h : Settled s) : s.vRandom.Perm s.mapInfo.keys := by
  refine (perm_ext_iff_of_nodup h.nodup Std.TreeMap.nodup_keys).mpr fun n => ?_
  rw [Std.TreeMap.mem_keys, Std.TreeMap.mem_iff_isSome_getElem?]
  constructor
  · intro hn
    obtain ⟨i, hi⟩ := getElem?_of_mem hn
    obtain ⟨info, hinfo, -⟩ := h.atPosition hi
    rw [show s.mapInfo[n]? = some info from hinfo]
    rfl
  · intro hn
    obtain ⟨info, hinfo⟩ := Option.isSome_iff_exists.mp hn
    obtain ⟨i, -, hi⟩ := h.position hinfo
    exact mem_of_getElem? hi

theorem triedIds (h : Settled s) :
    ((s.mapInfo.toList.filter (·.2.fInTried)).map Prod.fst).Perm s.vvTried.flatten := by
  refine triedIds_perm (fun n info hinfo => ?_) fun n hnone => (h.absent n hnone).1
  have hplaced := h.placed n info hinfo
  cases htried : info.fInTried with
  | true => exact (hplaced.tried htried).1
  | false => exact (hplaced.new htried).1

theorem countTried (h : Settled s) : (s.mapInfo.toList.countP (·.2.fInTried) : ℤ) = s.nTried := by
  have hlen := h.triedIds.length_eq
  rw [length_map] at hlen
  rw [countP_eq_length_filter, hlen]
  exact (AddrBook.Sound.countTried h).symm

theorem countNew (h : Settled s) : (s.mapInfo.toList.countP (!·.2.fInTried) : ℤ) = s.nNew := by
  have htried := h.countTried
  have hall := length_eq_tried_add_new h.random
  have hcount : (s.vRandom.length : ℤ) = s.nTried + s.nNew := h.count
  omega

/-- Settled books are consistent. -/
theorem consistent (h : Settled s) : Consistent newBucketCount s where
  random := h.random
  position _ _ hinfo := h.position hinfo
  inverse a n := by
    rw [show s.mapAddr[a]? = some n ↔ _ from h.addr a n]
    exact Option.map_eq_some_iff
  tried n info hinfo htried := by
    have hplaced := h.placed n info hinfo
    obtain ⟨hone, hzero, hsuccess⟩ := hplaced.tried htried
    refine ⟨hsuccess.ne', by rw [hplaced.refs, hzero]; rfl, hone, fun vNew hmem => ?_⟩
    obtain ⟨i, hi⟩ := getElem?_of_mem hmem
    exact not_mem_of_copies hzero hi
  new n info hinfo hnew := by
    have hplaced := h.placed n info hinfo
    obtain ⟨hzero, hlow, hhigh⟩ := hplaced.new hnew
    have hrefs := hplaced.refs
    have hcount := copies_eq_countP h.sets n
    rw [show s.book.newTable = s.vvNew from rfl] at hcount hrefs hlow hhigh
    refine ⟨by omega, by omega, by omega, fun vTried hmem => ?_⟩
    obtain ⟨i, hi⟩ := getElem?_of_mem hmem
    exact not_mem_of_copies hzero hi
  known bucket hbucket n hn := by
    rcases mem_append.mp hbucket with hmem | hmem
    · obtain ⟨i, hi⟩ := getElem?_of_mem hmem
      exact h.known_of_tried hi hn
    · obtain ⟨i, hi⟩ := getElem?_of_mem hmem
      exact h.known_of_new hi hn
  success n info hinfo := (h.placed n info hinfo).success
  nTried := h.countTried
  nNew := h.countNew
  sets := h.sets
  size bucket hbucket := by
    rcases mem_append.mp hbucket with hmem | hmem
    · exact h.triedSize bucket hmem
    · exact h.newSize bucket hmem
  tables := ⟨h.triedTable, h.newTable⟩

end Settled

/-! ### The check -/

/-- What `Check_` asks of an entry. -/
structure GoodEntry (s : CAddrMan) (n : ℕ) (info : CAddrInfo) : Prop where
  tried : info.fInTried = true → info.nLastSuccess ≠ 0 ∧ info.nRefCount = 0
  new : info.fInTried = false → 1 ≤ info.nRefCount ∧ info.nRefCount ≤ 8
  addr : s.mapAddr[info.ip]? = some n
  position : ∃ i : ℕ, info.nRandomPos = i ∧ s.vRandom[i]? = some n
  lastTry : 0 ≤ info.nLastTry
  lastSuccess : 0 ≤ info.nLastSuccess

/-- The tallies after an entry. -/
def tally (n : ℕ) (info : CAddrInfo) (t : Tallies) : Tallies :=
  if info.fInTried then (t.1.insert n, t.2) else (t.1, t.2.insert n info.nRefCount)

theorem checkEntry_ok (h : GoodEntry s n info) (t : Tallies) :
    checkEntry s n info t = .ok (tally n info t) := by
  obtain ⟨i, hpos, hi⟩ := h.position
  have hlt := (List.getElem?_eq_some_iff.mp hi).1
  have hrest : ∀ t' : Tallies, (do
      rejectIf (s.mapAddr[info.ip]?.getD 0 ≠ n) (-5)
      rejectIf (info.nRandomPos < 0 ∨ info.nRandomPos ≥ s.vRandom.length ∨
        s.vRandom[info.nRandomPos.toNat]? ≠ some n) (-14)
      rejectIf (info.nLastTry < 0) (-6)
      rejectIf (info.nLastSuccess < 0) (-8)
      return t' : Except ℤ Tallies) = .ok t' := by
    intro t'
    have hposition : ¬ (info.nRandomPos < 0 ∨ info.nRandomPos ≥ s.vRandom.length ∨
        s.vRandom[info.nRandomPos.toNat]? ≠ some n) := by
      rw [hpos, toNat_natCast, hi]
      simp only [ne_eq, not_true_eq_false, or_false]
      omega
    rw [rejectIf_of_not (by rw [h.addr]; simp), rejectIf_of_not hposition,
      rejectIf_of_not (not_lt.mpr h.lastTry), rejectIf_of_not (not_lt.mpr h.lastSuccess)]
    rfl
  unfold checkEntry tally
  cases htried : info.fInTried with
  | true =>
    obtain ⟨hsuccess, hrefs⟩ := h.tried htried
    simp only [if_neg hsuccess, hrefs]
    exact hrest _
  | false =>
    obtain ⟨hlow, hhigh⟩ := h.new htried
    have hrange : ¬ (info.nRefCount < 0 ∨ info.nRefCount > newBucketsPerAddress) := by
      rw [newBucketsPerAddress]
      omega
    simp only [if_neg hrange, if_neg (show ¬ info.nRefCount = 0 by omega)]
    exact hrest _

/-- The tallies of some entries. -/
structure Tallied (entries : List (ℕ × CAddrInfo)) (t : Tallies) : Prop where
  tried : ∀ n, t.1.contains n = true ↔ ∃ info, (n, info) ∈ entries ∧ info.fInTried = true
  new : ∀ n count, t.2[n]? = some count ↔ ∃ info, (n, info) ∈ entries ∧ info.fInTried = false ∧
    info.nRefCount = count
  triedSize : t.1.size = entries.countP (·.2.fInTried)
  newSize : t.2.size = entries.countP (!·.2.fInTried)

theorem Tallied.nil : Tallied [] (∅, ∅) := by
  refine ⟨fun n => ?_, fun n count => ?_, rfl, rfl⟩
  · simp
  · simp

/-- One more entry, with an id of its own. -/
theorem Tallied.concat {entries : List (ℕ × CAddrInfo)} {t : Tallies} (h : Tallied entries t)
    (hn : ∀ info', (n, info') ∉ entries) : Tallied (entries ++ [(n, info)]) (tally n info t) := by
  have hnotTried : t.1.contains n = false := by
    rw [← Bool.not_eq_true, h.tried]
    rintro ⟨info', hmem, -⟩
    exact hn info' hmem
  have hnotNew : t.2.contains n = false := by
    rw [Std.TreeMap.contains_eq_isSome_getElem?, Option.isSome_eq_false_iff,
      Option.isNone_iff_eq_none]
    cases hcount : t.2[n]? with
    | none => rfl
    | some count =>
      obtain ⟨info', hmem, -⟩ := (h.new n count).mp hcount
      exact absurd hmem (hn info')
  unfold tally
  cases htried : info.fInTried with
  | true =>
    refine ⟨fun m => ?_, fun m count => ?_, ?_, ?_⟩
    · simp only [if_true]
      rw [Std.TreeSet.contains_insert, Bool.or_eq_true, h.tried, beq_iff_eq, Std.compare_eq_iff_eq]
      constructor
      · rintro (rfl | ⟨info', hmem, htrue⟩)
        · exact ⟨info, by simp, htried⟩
        · exact ⟨info', mem_append_left _ hmem, htrue⟩
      · rintro ⟨info', hmem, htrue⟩
        rcases mem_append.mp hmem with hmem | hmem
        · exact .inr ⟨info', hmem, htrue⟩
        · rw [mem_singleton, mk.injEq] at hmem
          exact .inl hmem.1.symm
    · simp only [if_true]
      rw [h.new]
      constructor
      · rintro ⟨info', hmem, hfalse⟩
        exact ⟨info', mem_append_left _ hmem, hfalse⟩
      · rintro ⟨info', hmem, hfalse, hcount⟩
        rcases mem_append.mp hmem with hmem | hmem
        · exact ⟨info', hmem, hfalse, hcount⟩
        · rw [mem_singleton, mk.injEq] at hmem
          rw [hmem.2, htried] at hfalse
          cases hfalse
    · simp only [if_true]
      rw [Std.TreeSet.size_insert, hnotTried, h.triedSize, countP_append]
      simp [htried]
    · simp only [if_true]
      rw [h.newSize, countP_append]
      simp [htried]
  | false =>
    refine ⟨fun m => ?_, fun m count => ?_, ?_, ?_⟩
    · simp only [Bool.false_eq_true, if_false]
      rw [h.tried]
      constructor
      · rintro ⟨info', hmem, htrue⟩
        exact ⟨info', mem_append_left _ hmem, htrue⟩
      · rintro ⟨info', hmem, htrue⟩
        rcases mem_append.mp hmem with hmem | hmem
        · exact ⟨info', hmem, htrue⟩
        · rw [mem_singleton, mk.injEq] at hmem
          rw [hmem.2, htried] at htrue
          cases htrue
    · simp only [Bool.false_eq_true, if_false]
      rw [Std.TreeMap.getElem?_insert]
      simp only [Std.compare_eq_iff_eq]
      split_ifs with hnm
      · subst hnm
        constructor
        · intro hcount
          exact ⟨info, by simp, htried, Option.some.inj hcount⟩
        · rintro ⟨info', hmem, -, hcount⟩
          rcases mem_append.mp hmem with hmem | hmem
          · exact absurd hmem (hn info')
          · rw [mem_singleton, mk.injEq] at hmem
            rw [← hcount, hmem.2]
      · rw [h.new]
        constructor
        · rintro ⟨info', hmem, hfalse⟩
          exact ⟨info', mem_append_left _ hmem, hfalse⟩
        · rintro ⟨info', hmem, hfalse⟩
          rcases mem_append.mp hmem with hmem | hmem
          · exact ⟨info', hmem, hfalse⟩
          · rw [mem_singleton, mk.injEq] at hmem
            exact absurd hmem.1.symm hnm
    · simp only [Bool.false_eq_true, if_false]
      rw [h.triedSize, countP_append]
      simp [htried]
    · simp only [Bool.false_eq_true, if_false]
      rw [Std.TreeMap.size_insert, if_neg (by rw [hnotNew]; exact Bool.false_ne_true),
        h.newSize, countP_append]
      simp [htried]

/-- The loop over the entries. -/
theorem checkEntries_ok {entries rest : List (ℕ × CAddrInfo)} {t : Tallies} (h : Tallied entries t)
    (hnodup : ((entries ++ rest).map Prod.fst).Nodup) (hgood : ∀ e ∈ rest, GoodEntry s e.1 e.2) :
    ∃ t', rest.foldlM (fun t entry => checkEntry s entry.1 entry.2 t) t = .ok t' ∧
    Tallied (entries ++ rest) t' := by
  induction rest generalizing entries t with
  | nil => exact ⟨t, rfl, by rwa [append_nil]⟩
  | cons e rest ih =>
    obtain ⟨n, info⟩ := e
    have hn : ∀ info', (n, info') ∉ entries := by
      intro info' hmem
      rw [map_append, map_cons, nodup_append] at hnodup
      exact hnodup.2.2 n (mem_map_of_mem hmem) n mem_cons_self rfl
    have hconcat : Tallied (entries ++ [(n, info)]) (tally n info t) := h.concat hn
    have hsame : entries ++ (n, info) :: rest = entries ++ [(n, info)] ++ rest := by simp
    obtain ⟨t', hrun, htallied⟩ := ih hconcat (hsame ▸ hnodup) fun e hmem => hgood e (.tail _ hmem)
    refine ⟨t', ?_, hsame ▸ htallied⟩
    rw [foldlM_cons, checkEntry_ok (hgood _ mem_cons_self)]
    exact hrun

/-- The loop over the tried buckets. -/
theorem checkTried_ok {ids : List ℕ} {setTried : Std.TreeSet ℕ} (hnodup : ids.Nodup)
    (h : ∀ n, setTried.contains n = true ↔ n ∈ ids) :
    ∃ setTried', checkTried ids setTried = .ok setTried' ∧ setTried'.size = 0 := by
  induction ids generalizing setTried with
  | nil =>
    refine ⟨setTried, rfl, ?_⟩
    have hempty : setTried.isEmpty = true := by
      rw [Std.TreeSet.isEmpty_iff_forall_contains]
      intro n
      rw [← Bool.not_eq_true, h]
      exact not_mem_nil
    rw [Std.TreeSet.isEmpty_eq_size_eq_zero] at hempty
    simpa using hempty
  | cons n ids ih =>
    obtain ⟨hn, hnodup'⟩ := nodup_cons.mp hnodup
    rw [checkTried, if_pos ((h n).mpr mem_cons_self)]
    refine ih hnodup' fun m => ?_
    rw [Std.TreeSet.contains_erase, Bool.and_eq_true, h, mem_cons]
    rw [bne_iff_ne, ne_eq, Std.compare_eq_iff_eq]
    constructor
    · rintro ⟨hne, rfl | hmem⟩
      · exact absurd rfl hne
      · exact hmem
    · intro hmem
      exact ⟨fun heq => hn (heq ▸ hmem), .inr hmem⟩

/-- The loop over the new buckets. -/
theorem checkNew_ok {ids : List ℕ} {mapNew : Std.TreeMap ℕ ℤ}
    (h : ∀ n, mapNew[n]? = if ids.count n = 0 then none else some (ids.count n : ℤ)) :
    ∃ mapNew', checkNew ids mapNew = .ok mapNew' ∧ mapNew'.size = 0 := by
  induction ids generalizing mapNew with
  | nil =>
    refine ⟨mapNew, rfl, ?_⟩
    have hempty : mapNew.isEmpty = true := by
      rw [Std.TreeMap.isEmpty_iff_forall_not_mem]
      intro n
      rw [Std.TreeMap.mem_iff_isSome_getElem?, h]
      simp
    rw [Std.TreeMap.isEmpty_eq_size_eq_zero] at hempty
    simpa using hempty
  | cons n ids ih =>
    have hn := h n
    rw [count_cons_self, if_neg (succ_ne_zero _)] at hn
    rw [checkNew, hn]
    refine ih fun m => ?_
    have hm := h m
    by_cases hnm : m = n
    · subst hnm
      split_ifs with hlast hzero hzero
      · rw [Std.TreeMap.getElem?_erase_self]
      · push_cast at hlast
        omega
      · push_cast at hlast
        omega
      · rw [Std.TreeMap.getElem?_insert_self]
        congr 1
        omega
    · rw [count_cons_of_ne (fun heq => hnm heq.symm)] at hm
      have hcompare : ¬ compare n m = .eq := fun heq => hnm (Std.compare_eq_iff_eq.mp heq).symm
      rw [← hm]
      split_ifs
      · rw [Std.TreeMap.getElem?_erase, if_neg hcompare]
      · rw [Std.TreeMap.getElem?_insert, if_neg hcompare]

end AddrMan

namespace Consistent

open AddrMan

variable {s : CAddrMan} {nBuckets : ℕ}

theorem triedIds (h : Consistent nBuckets s) :
    ((s.mapInfo.toList.filter (·.2.fInTried)).map Prod.fst).Perm s.vvTried.flatten := by
  refine triedIds_perm (fun n info hinfo => ?_) fun n hnone => ?_
  · cases htried : info.fInTried with
    | true => exact (h.tried n info hinfo htried).2.2.1
    | false => exact copies_eq_zero.mpr (h.new n info hinfo htried).2.2.2
  · refine copies_eq_zero.mpr fun vTried hmem hn => ?_
    obtain ⟨info, hinfo⟩ := h.known vTried (mem_append_left _ hmem) n hn
    rw [hnone] at hinfo
    cases hinfo

/-- How often an id is in the new buckets. -/
theorem copiesNew (h : Consistent nBuckets s) (n : ℕ) :
    (copies n s.vvNew : ℤ) = (s.mapInfo[n]?.map (·.nRefCount)).getD 0 := by
  cases hinfo : s.mapInfo[n]? with
  | none =>
    have hzero : copies n s.vvNew = 0 := copies_eq_zero.mpr fun vNew hmem hn => by
      obtain ⟨info, hinfo'⟩ := h.known vNew (mem_append_right _ hmem) n hn
      rw [hinfo] at hinfo'
      cases hinfo'
    rw [hzero]
    rfl
  | some info =>
    cases htried : info.fInTried with
    | true =>
      obtain ⟨-, hrefs, -, hnot⟩ := h.tried n info hinfo htried
      rw [copies_eq_zero.mpr hnot]
      exact hrefs.symm
    | false =>
      rw [copies_eq_countP h.sets]
      exact (h.new n info hinfo htried).2.2.1

theorem length_random (h : Consistent nBuckets s) : (s.vRandom.length : ℤ) = s.nTried + s.nNew := by
  have hall := length_eq_tried_add_new h.random
  have htried := h.nTried
  have hnew := h.nNew
  omega

/-- **`Check_` finds nothing** in consistent books without negative times. -/
theorem check_ok (h : Consistent nBuckets s)
    (htimes : ∀ (n : ℕ) (info : CAddrInfo), s.mapInfo[n]? = some info → 0 ≤ info.nLastTry) :
    check s = 0 := by
  have hgood : ∀ e ∈ s.mapInfo.toList, GoodEntry s e.1 e.2 := by
    rintro ⟨n, info⟩ hmem
    have hinfo := Std.TreeMap.mem_toList_iff_getElem?_eq_some.mp hmem
    refine ⟨fun htried => ?_, fun hnew => ?_, (h.inverse _ _).mpr ⟨info, hinfo, rfl⟩,
      h.position n info hinfo, htimes n info hinfo, h.success n info hinfo⟩
    · obtain ⟨hsuccess, hrefs, -⟩ := h.tried n info hinfo htried
      exact ⟨hsuccess, hrefs⟩
    · obtain ⟨hlow, hhigh, -⟩ := h.new n info hinfo hnew
      exact ⟨hlow, hhigh⟩
  obtain ⟨⟨setTried, mapNew⟩, hrun, htallied⟩ := checkEntries_ok Tallied.nil (by
    rw [nil_append]
    exact s.nodup_ids) hgood
  rw [nil_append] at htallied
  have hids := h.triedIds
  have hnodup : s.vvTried.flatten.Nodup :=
    hids.nodup_iff.mp (s.nodup_ids.sublist (filter_sublist.map Prod.fst))
  obtain ⟨setTried', hrunTried, hemptyTried⟩ := checkTried_ok hnodup fun n => by
    rw [htallied.tried, ← hids.mem_iff, mem_map]
    constructor
    · rintro ⟨info, hmem, htried⟩
      exact ⟨(n, info), mem_filter.mpr ⟨hmem, htried⟩, rfl⟩
    · rintro ⟨⟨m, info⟩, hmem, rfl⟩
      obtain ⟨hmem, htried⟩ := mem_filter.mp hmem
      exact ⟨info, hmem, htried⟩
  obtain ⟨mapNew', hrunNew, hemptyNew⟩ := checkNew_ok fun n => by
    have hcopies := h.copiesNew n
    rw [show s.vvNew.flatten.count n = copies n s.vvNew from rfl]
    cases hcount : mapNew[n]? with
    | none =>
      rw [if_pos]
      cases hinfo : s.mapInfo[n]? with
      | none =>
        rw [hinfo] at hcopies
        exact natCast_eq_zero.mp hcopies
      | some info =>
        rw [hinfo] at hcopies
        have hmem : (n, info) ∈ s.mapInfo.toList :=
          Std.TreeMap.mem_toList_iff_getElem?_eq_some.mpr hinfo
        cases htried : info.fInTried with
        | true => exact natCast_eq_zero.mp (hcopies.trans (h.tried n info hinfo htried).2.1)
        | false =>
          have := (htallied.new n info.nRefCount).mpr ⟨info, hmem, htried, rfl⟩
          rw [hcount] at this
          cases this
    | some count =>
      obtain ⟨info, hmem, hnew, hrefs⟩ := (htallied.new n count).mp hcount
      have hinfo := Std.TreeMap.mem_toList_iff_getElem?_eq_some.mp hmem
      have hlow := (h.new n info hinfo hnew).1
      rw [hinfo, Option.map_some, Option.getD_some] at hcopies
      rw [if_neg (by omega), hcopies, hrefs]
  have hcountTried := h.nTried
  have hcountNew := h.nNew
  rw [← htallied.triedSize] at hcountTried
  rw [← htallied.newSize] at hcountNew
  unfold check
  rw [rejectIf_of_not (not_not.mpr h.length_random), hrun]
  simp only [except_ok_bind]
  rw [rejectIf_of_not (not_not.mpr hcountTried), rejectIf_of_not (not_not.mpr hcountNew),
    hrunTried, hrunNew]
  simp only [except_ok_bind]
  rw [rejectIf_of_not (not_not.mpr hemptyTried), rejectIf_of_not (not_not.mpr hemptyNew)]
  rfl

end Consistent

section Runs

variable {E : AddrEnv} {s : CAddrMan}

/-- **The books of every run are consistent**: `Check_` finds nothing as long as no entry has a
negative time, and whatever is done next ends without a failed assertion. -/
theorem addrMan_consistent (h : AddrRun E s) : Consistent newBucketCount s ∧
    (∀ (op : AddrOp) (o : Oracle), op.Positive → ∃ t, op.exec E o s = .ok () t) ∧
      ((∀ (n : ℕ) (info : CAddrInfo), s.mapInfo[n]? = some info → 0 ≤ info.nLastTry) →
      AddrMan.check s = 0) := by
  have hsettled := h.settled
  refine ⟨hsettled.consistent, fun op o hop => ?_, hsettled.consistent.check_ok⟩
  obtain ⟨t, hrun, -⟩ := AddrOp.exec_ok (E := E) (o := o) hsettled hop
  exact ⟨t, hrun⟩

end Runs

/-- Hashes that put everything in one bucket. -/
def AddrEnv.constant : AddrEnv where
  triedHash _ := 0
  newHash _ _ := 0
  isRoutable _ := true
  useTried _ _ _ _ := false
  accepts _ _ _ _ := true

/-- An address that was heard of and then connected to. -/
theorem addrMan_consistent_good :
    let o : Oracle := ⟨fun _ => 0, fun _ => 1000⟩
    let addr : CAddress := ⟨⟨7, 22448⟩, 1, 900, 0⟩
    ∃ s t, (AddrOp.add addr 7 0).exec .constant o .empty = .ok () s ∧
      (AddrOp.good addr.toCService 1000).exec .constant o s = .ok () t ∧
      Consistent newBucketCount t := by
  intro o addr
  have hgood : (AddrOp.good addr.toCService 1000).Positive := by
    show (0 : ℤ) < 1000
    decide
  obtain ⟨s, hadd⟩ := (addrMan_consistent (E := .constant) .start).2.1 (.add addr 7 0) o trivial
  have hs : AddrRun .constant s := .step (.add addr 7 0) o .start trivial hadd
  obtain ⟨t, ht⟩ := (addrMan_consistent hs).2.1 (.good addr.toCService 1000) o hgood
  exact ⟨s, t, hadd, ht, (addrMan_consistent (.step (.good addr.toCService 1000) o hs hgood ht)).1⟩

end Espers
