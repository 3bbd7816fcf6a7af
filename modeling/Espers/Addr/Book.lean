import Espers.Addr.Manager
import Espers.Lib.Buckets
import Espers.Lib.Mutual
import Mathlib.Data.List.Perm.Basic

/-!
# The books of the address manager

The tables of the address manager as partial functions, buckets and numbers, and what holds of them
between the lines of its operations.

* `AddrBook.Sound owed b` : positions and entries point into each other, so do addresses and
  entries, and every entry is in one tried bucket or in as many new buckets as its count of
  references says.  `owed` counts the references that are noted before the bucket has the entry.
* `Sound.swap`, `Sound.enter`, `Sound.leave` : the list in random order, and entries that come and
  go.
* `Sound.replace` : entries and buckets change together.
-/

namespace Espers

open Mutual Buckets List Option Function Bool Nat

/-- The tables. -/
@[ext] structure AddrBook where
  next : ℕ
  info : ℕ → Option CAddrInfo
  addr : CNetAddr → Option ℕ
  order : List ℕ
  nTried : ℤ
  triedTable : List (List ℕ)
  nNew : ℤ
  newTable : List (List ℕ)

/-- The tables of an address manager. -/
def CAddrMan.book (s : CAddrMan) : AddrBook where
  next := s.nIdCount
  info n := s.mapInfo[n]?
  addr a := s.mapAddr[a]?
  order := s.vRandom
  nTried := s.nTried
  triedTable := s.vvTried
  nNew := s.nNew
  newTable := s.vvNew

/-- An entry is in one tried bucket, or in one to eight new buckets. -/
structure CAddrInfo.Placed (info : CAddrInfo) (inTried inNew : ℕ) : Prop where
  refs : info.nRefCount = inNew
  tried : info.fInTried = true → inTried = 1 ∧ inNew = 0 ∧ 0 < info.nLastSuccess
  new : info.fInTried = false → inTried = 0 ∧ 1 ≤ inNew ∧ inNew ≤ 8
  success : 0 ≤ info.nLastSuccess

namespace AddrBook

/-- What holds of the tables when some references are owed. -/
structure Sound (owed : ℕ → ℕ) (b : AddrBook) : Prop where
  fresh : ∀ n info, b.info n = some info → n < b.next
  order : Inverse (fun n => (b.info n).map (·.nRandomPos)) (entry b.order)
  addr : Inverse b.addr (fun n => (b.info n).map (·.ip))
  placed : ∀ n info, b.info n = some info → info.Placed (copies n b.triedTable)
    (copies n b.newTable + owed n)
  absent : ∀ n, b.info n = none → copies n b.triedTable = 0 ∧ copies n b.newTable = 0 ∧ owed n = 0
  sets : ∀ vNew ∈ b.newTable, vNew.Nodup
  triedSize : ∀ vTried ∈ b.triedTable, vTried.length ≤ triedBucketSize
  newSize : ∀ vNew ∈ b.newTable, vNew.length ≤ newBucketSize
  triedTable : b.triedTable.length = triedBucketCount
  newTable : b.newTable.length = newBucketCount
  countTried : b.nTried = total b.triedTable
  count : (b.order.length : ℤ) = b.nTried + b.nNew

variable {owed : ℕ → ℕ} {b : AddrBook} {n m : ℕ} {info info' : CAddrInfo} {i j : ℕ}

namespace Sound

/-- The tables of an address manager that is new. -/
theorem empty : Sound (fun _ => 0) CAddrMan.empty.book where
  fresh n info h := by simp [CAddrMan.book, CAddrMan.empty] at h
  order n z := by simp [CAddrMan.book, CAddrMan.empty, entry]
  addr a n := by simp [CAddrMan.book, CAddrMan.empty]
  placed n info h := by simp [CAddrMan.book, CAddrMan.empty] at h
  absent n _ := ⟨copies_replicate_nil _ _, copies_replicate_nil _ _, rfl⟩
  sets vNew h := by
    obtain rfl := eq_of_mem_replicate h
    exact nodup_nil
  triedSize vTried h := by
    obtain rfl := eq_of_mem_replicate h
    exact zero_le _
  newSize vNew h := by
    obtain rfl := eq_of_mem_replicate h
    exact zero_le _
  triedTable := length_replicate
  newTable := length_replicate
  countTried := by simp [CAddrMan.book, CAddrMan.empty, total]
  count := rfl

/-! ### The list in random order -/

theorem position (h : b.Sound owed) (hn : b.info n = some info) :
    ∃ i : ℕ, info.nRandomPos = i ∧ b.order[i]? = some n := by
  have := h.order.left (a := n) (b := info.nRandomPos) (by simp [hn])
  exact entry_eq_some.mp this

theorem atPosition (h : b.Sound owed) (hi : b.order[i]? = some n) :
    ∃ info, b.info n = some info ∧ info.nRandomPos = i := by
  have := h.order.right (a := n) (b := (i : ℤ)) (by rw [entry_natCast, hi])
  exact map_eq_some_iff.mp this

theorem known_addr (h : b.Sound owed) (hn : b.info n = some info) : b.addr info.ip = some n :=
  h.addr.right (by simp [hn])

theorem of_addr (h : b.Sound owed) {a : CNetAddr} (ha : b.addr a = some n) :
    ∃ info, b.info n = some info ∧ info.ip = a :=
  map_eq_some_iff.mp (h.addr.left ha)

theorem known_of_tried (h : b.Sound owed) {vTried : List ℕ} (hb : b.triedTable[i]? = some vTried)
    (hn : n ∈ vTried) : ∃ info, b.info n = some info := by
  cases hinfo : b.info n with
  | some info => exact ⟨info, rfl⟩
  | none => exact absurd hn (not_mem_of_copies (h.absent n hinfo).1 hb)

variable {vNew : List ℕ}

section

variable (h : b.Sound owed)
include h

theorem known_of_new (hb : b.newTable[i]? = some vNew)
    (hn : n ∈ vNew) : ∃ info, b.info n = some info := by
  cases hinfo : b.info n with
  | some info => exact ⟨info, rfl⟩
  | none => exact absurd hn (not_mem_of_copies (h.absent n hinfo).2.1 hb)

/-! ### Entries and buckets -/

/-- **Entries and buckets change**, positions and addresses do not. -/
theorem replace {b' : AddrBook} {owed' : ℕ → ℕ} (hnext : b'.next = b.next)
    (haddr : b'.addr = b.addr) (horder : b'.order = b.order)
    (hpos : (fun n => (b'.info n).map (·.nRandomPos)) = fun n => (b.info n).map (·.nRandomPos))
    (hip : (fun n => (b'.info n).map (·.ip)) = fun n => (b.info n).map (·.ip))
    (hplaced : ∀ n info, b'.info n = some info →
      info.Placed (copies n b'.triedTable) (copies n b'.newTable + owed' n))
    (habsent : ∀ n, b.info n = none → copies n b'.triedTable = 0 ∧ copies n b'.newTable =
      0 ∧ owed' n = 0)
    (hsets : ∀ vNew ∈ b'.newTable, vNew.Nodup)
    (htriedSize : ∀ vTried ∈ b'.triedTable, vTried.length ≤ triedBucketSize)
    (hnewSize : ∀ vNew ∈ b'.newTable, vNew.length ≤ newBucketSize)
    (htriedTable : b'.triedTable.length = b.triedTable.length)
      (hnewTable : b'.newTable.length = b.newTable.length)
    (hcountTried : b'.nTried = total b'.triedTable)
      (hcount : b'.nTried + b'.nNew = b.nTried + b.nNew) :
    b'.Sound owed' := by
  have hknown : ∀ n, b'.info n = none ↔ b.info n = none := by
    intro n
    have := congrFun hip n
    rw [← map_eq_none_iff (f := fun x : CAddrInfo => x.ip), ←
      map_eq_none_iff (x := b.info n) (f := fun x : CAddrInfo => x.ip), this]
  refine ⟨?_, ?_, ?_, hplaced, fun n hn => habsent n ((hknown n).mp hn), hsets,
    htriedSize, hnewSize, htriedTable.trans h.triedTable, hnewTable.trans h.newTable,
    hcountTried, ?_⟩
  · intro n info hn
    cases hold : b.info n with
    | none =>
      rw [(hknown n).mpr hold] at hn
      cases hn
    | some info' => exact hnext ▸ h.fresh n info' hold
  · rw [hpos, horder]
    exact h.order
  · rw [haddr, hip]
    exact h.addr
  · rw [horder, hcount]
    exact h.count

theorem touch (hn : b.info n = some info)
    (hpos : info'.nRandomPos = info.nRandomPos) (hip : info'.ip = info.ip)
    (hplaced : info'.Placed (copies n b.triedTable) (copies n b.newTable + owed n)) :
    { b with info := update b.info n (some info') }.Sound owed := by
  refine h.replace rfl rfl rfl (map_update_same hn hpos)
    (map_update_same hn hip) ?_ h.absent h.sets h.triedSize h.newSize rfl rfl h.countTried rfl
  intro m infoM hm
  simp only [update_apply] at hm
  split_ifs at hm with hmn
  · cases hm
    rwa [hmn]
  · exact h.placed m infoM hm

/-- A reference is noted. -/
theorem owe (hn : b.info n = some info) (hnew : info.fInTried = false) (hlt : info.nRefCount < 8) :
    { b with info :=
    Function.update b.info n (some { info with nRefCount := info.nRefCount + 1 }) }.Sound
      (update owed n (owed n + 1)) := by
  refine h.replace rfl rfl rfl (map_update_same hn rfl)
    (map_update_same hn rfl) ?_ ?_ h.sets h.triedSize h.newSize rfl rfl h.countTried rfl
  · intro m infoM hm
    simp only [update_apply] at hm ⊢
    split_ifs at hm ⊢ with hmn
    · cases hm
      subst hmn
      obtain ⟨hrefs, -, hplaced, hsuccess⟩ := h.placed m info hn
      obtain ⟨htried, hlow, -⟩ := hplaced hnew
      refine ⟨?_, fun htrue => ?_, fun _ => ⟨htried, ?_, ?_⟩, hsuccess⟩
      · simp only [hrefs]
        omega
      · simp only [hnew] at htrue
        cases htrue
      · omega
      · omega
    · exact h.placed m infoM hm
  · intro m hm
    rw [update_of_ne]
    · exact h.absent m hm
    · rintro rfl
      rw [hn] at hm
      cases hm

/-- A bucket gets an entry that was owed to it. -/
theorem settle {vNew vNew' : List ℕ} (hb : b.newTable[i]? = some vNew)
    (hperm : vNew'.Perm (n :: vNew)) (hn : n ∉ vNew) (howed : 1 ≤ owed n)
    (hlen : vNew.length < newBucketSize) :
    { b with newTable := b.newTable.set i vNew' }.Sound (update owed n (owed n - 1)) := by
  have hcopies : ∀ m, copies m (b.newTable.set i vNew') = copies m b.newTable + if m = n then
    1 else 0 := by
    intro m
    have := copies_set hb m vNew'
    rw [hperm.count_eq, count_cons] at this
    simp only [beq_iff_eq, eq_comm (a := n)] at this
    omega
  refine h.replace rfl rfl rfl rfl rfl ?_ ?_ (forall_mem_set h.sets ?_) h.triedSize
    (forall_mem_set h.newSize ?_) rfl (length_set) h.countTried rfl
  · intro m infoM hm
    have := h.placed m infoM hm
    simp only [hcopies, update_apply]
    split_ifs with hmn
    · subst hmn
      rwa [show copies m b.newTable + 1 + (owed m - 1) = copies m b.newTable + owed m by omega]
    · exact this
  · intro m hm
    obtain ⟨htried, hnew, hzero⟩ := h.absent m hm
    have hmn : m ≠ n := by
      rintro rfl
      omega
    rw [update_of_ne hmn]
    simp only [hcopies, if_neg hmn]
    exact ⟨htried, hnew, hzero⟩
  · exact hperm.nodup_iff.mpr (nodup_cons.mpr ⟨hn, h.sets _ (mem_of_getElem? hb)⟩)
  · rw [hperm.length_eq, length_cons]
    exact hlen

/-- A bucket loses an entry that other buckets have. -/
theorem release (hb : b.newTable[i]? = some vNew) (hn : n ∈ vNew)
    (hinfo : b.info n = some info) (hrefs : info.nRefCount ≠ 1) :
    { b with
      info := update b.info n (some { info with nRefCount := info.nRefCount - 1 })
      newTable := b.newTable.set i (vNew.erase n) }.Sound owed := by
  have hset := h.sets _ (mem_of_getElem? hb)
  have hcopies := copies_erase hb hset hn
  refine h.replace rfl rfl rfl (map_update_same hinfo rfl) (map_update_same hinfo rfl) ?_ ?_
    (forall_mem_set h.sets (hset.erase n)) h.triedSize (forall_mem_set h.newSize ?_) rfl
    (length_set) h.countTried rfl
  · intro m infoM hm
    have hcopy := hcopies m
    simp only [update_apply] at hm
    split_ifs at hm with hmn
    · cases hm
      subst hmn
      rw [if_pos rfl] at hcopy
      obtain ⟨hcount, htried, hnew, hsuccess⟩ := h.placed m info hinfo
      show CAddrInfo.Placed _ _ (copies m (b.newTable.set i (vNew.erase m)) + owed m)
      refine ⟨?_, fun htrue => ?_, fun hfalse => ?_, hsuccess⟩
      · simp only [hcount]
        omega
      · have := (htried htrue).2.1
        omega
      · obtain ⟨hzero, hlow, hhigh⟩ := hnew hfalse
        exact ⟨hzero, by omega, by omega⟩
    · rw [if_neg hmn] at hcopy
      have := h.placed m infoM hm
      rwa [show copies m (b.newTable.set i (vNew.erase n)) = copies m b.newTable by omega]
  · intro m hm
    have hcopy := hcopies m
    obtain ⟨htried, hnew, hzero⟩ := h.absent m hm
    exact ⟨htried, by simp only; omega, hzero⟩
  · exact (length_erase_le).trans (h.newSize _ (mem_of_getElem? hb))

/-- The elements of a tried bucket change places. -/
theorem permute {vTried vTried' : List ℕ} (hb : b.triedTable[i]? = some vTried)
    (hperm : vTried'.Perm vTried) :
    { b with triedTable := b.triedTable.set i vTried' }.Sound owed := by
  have hcopies : ∀ m, copies m (b.triedTable.set i vTried') = copies m b.triedTable := by
    intro m
    have := copies_set hb m vTried'
    rw [hperm.count_eq] at this
    omega
  have htotal := total_set hb vTried'
  rw [hperm.length_eq] at htotal
  refine h.replace rfl rfl rfl rfl rfl ?_ ?_ h.sets (forall_mem_set h.triedSize ?_) h.newSize
    length_set rfl ?_ rfl
  · intro m infoM hm
    rw [hcopies]
    exact h.placed m infoM hm
  · intro m hm
    rw [hcopies]
    exact h.absent m hm
  · rw [hperm.length_eq]
    exact h.triedSize _ (mem_of_getElem? hb)
  · rw [h.countTried]
    simp only
    omega

/-- An entry moves from its new buckets to a tried bucket. -/
theorem promote (hinfo : b.info n = some info) (hnew : info.fInTried = false)
    (hsuccess : 0 < info.nLastSuccess) (howed : owed n = 0) {vTried : List ℕ}
    (hb : b.triedTable[i]? = some vTried) (hlen : vTried.length < triedBucketSize) :
    { b with
      info := update b.info n (some { info with nRefCount := 0, fInTried := true })
      nTried := b.nTried + 1
      triedTable := b.triedTable.set i (vTried ++ [n])
      nNew := b.nNew - 1
      newTable := b.newTable.map (List.erase · n) }.Sound owed := by
  have hcopiesTried : ∀ m, copies m (b.triedTable.set i (vTried ++ [n])) =
      copies m b.triedTable + if m = n then 1 else 0 := by
    intro m
    have := copies_set hb m (vTried ++ [n])
    rw [count_append, count_singleton] at this
    simp only [beq_iff_eq, eq_comm (a := n)] at this
    omega
  have htotal := total_set hb (vTried ++ [n])
  rw [length_append, length_singleton] at htotal
  obtain ⟨hzero, -, -⟩ := (h.placed n info hinfo).new hnew
  refine h.replace rfl rfl rfl (map_update_same hinfo rfl) (map_update_same hinfo rfl) ?_ ?_ ?_
    (forall_mem_set h.triedSize ?_) ?_ length_set (length_map _) ?_ ?_
  · intro m infoM hm
    simp only [update_apply] at hm
    simp only [hcopiesTried, copies_eraseAll h.sets]
    split_ifs at hm ⊢ with hmn
    · cases hm
      subst hmn
      exact ⟨by simp only [howed]; rfl, fun _ => ⟨by omega, by omega, hsuccess⟩, fun h =>
        Bool.noConfusion h, hsuccess.le⟩
    · exact h.placed m infoM hm
  · intro m hm
    obtain ⟨habsTried, habsNew, hzero⟩ := h.absent m hm
    have hmn : m ≠ n := by
      rintro rfl
      rw [hinfo] at hm
      cases hm
    simp only [hcopiesTried, copies_eraseAll h.sets, if_neg hmn]
    exact ⟨habsTried, habsNew, hzero⟩
  · intro vNew hmem
    obtain ⟨vNew', hmem', rfl⟩ := mem_map.mp hmem
    exact (h.sets _ hmem').erase n
  · rw [length_append, length_singleton]
    exact hlen
  · intro vNew hmem
    obtain ⟨vNew', hmem', rfl⟩ := mem_map.mp hmem
    exact length_erase_le.trans (h.newSize _ hmem')
  · have := h.countTried
    simp only
    omega
  · simp only
    omega

/-- An entry leaves a tried bucket; a new bucket is to have it. -/
theorem demote (hold : b.info n = some info) (htried : info.fInTried = true) (howed : owed n = 0)
    {vTried vTried' : List ℕ} (hb : b.triedTable[i]? = some vTried)
    (hperm : (n :: vTried').Perm vTried) :
    { b with
      info := update b.info n (some { info with fInTried := false, nRefCount := 1 })
      nTried := b.nTried - 1
      triedTable := b.triedTable.set i vTried'
      nNew := b.nNew + 1 }.Sound (update owed n 1) := by
  obtain ⟨hone, hnew, -⟩ := (h.placed n info hold).tried htried
  have hcopies : ∀ m, copies m (b.triedTable.set i vTried') + (if m = n then 1 else 0) =
      copies m b.triedTable := by
    intro m
    have := copies_set hb m vTried'
    rw [← hperm.count_eq, count_cons] at this
    simp only [beq_iff_eq, eq_comm (a := n)] at this
    omega
  have htotal := total_set hb vTried'
  rw [← hperm.length_eq, length_cons] at htotal
  refine h.replace rfl rfl rfl (map_update_same hold rfl) (map_update_same hold rfl) ?_ ?_ h.sets
    (forall_mem_set h.triedSize ?_) h.newSize length_set rfl ?_ ?_
  · intro m infoM hm
    have hcopy := hcopies m
    simp only [update_apply] at hm ⊢
    split_ifs at hm hcopy ⊢ with hmn
    · cases hm
      subst hmn
      refine ⟨?_, fun h => Bool.noConfusion h, fun _ => ⟨by omega, by omega, by omega⟩,
        (h.placed m info hold).success⟩
      simp only
      omega
    · rw [add_zero] at hcopy
      rw [hcopy]
      exact h.placed m infoM hm
  · intro m hm
    have hcopy := hcopies m
    obtain ⟨habsTried, habsNew, hzero⟩ := h.absent m hm
    have hmn : m ≠ n := by
      rintro rfl
      rw [hold] at hm
      cases hm
    rw [if_neg hmn] at hcopy
    rw [update_of_ne hmn]
    exact ⟨hcopy.trans habsTried, habsNew, hzero⟩
  · have hle := h.triedSize _ (mem_of_getElem? hb)
    rw [← hperm.length_eq, length_cons] at hle
    omega
  · have := h.countTried
    simp only
    omega
  · simp only
    omega

/-- An entry takes the place of another one in a tried bucket, and that one moves to a new
bucket. -/
theorem exchange (hinfo : b.info n = some info) (hnew : info.fInTried = false)
    (hsuccess : 0 < info.nLastSuccess) (howed : owed n = 0) {vTried vNew vNew' : List ℕ}
    {old p u : ℕ} {infoOld : CAddrInfo} (hb : b.triedTable[i]? = some vTried)
    (hp : vTried[p]? = some old) (hinfoOld : b.info old = some infoOld) (howedOld : owed old = 0)
    (hu : (b.newTable.map (List.erase · n))[u]? = some vNew) (hlen : vNew.length < newBucketSize)
    (hperm : vNew'.Perm (old :: vNew)) :
    { b with
      info := update
        (update b.info n (some { info with nRefCount := 0, fInTried := true })) old
        (some { infoOld with fInTried := false, nRefCount := 1 })
      triedTable := b.triedTable.set i (vTried.set p n)
      newTable := (b.newTable.map (List.erase · n)).set u vNew' }.Sound owed := by
  obtain ⟨hplt, rfl⟩ := List.getElem?_eq_some_iff.mp hp
  obtain ⟨hilt, -⟩ := List.getElem?_eq_some_iff.mp hb
  have holdTried : infoOld.fInTried = true := by
    by_contra hfalse
    have := (h.placed _ infoOld hinfoOld).new (not_eq_true _ ▸ hfalse)
    exact absurd (mem_of_getElem? hp) (not_mem_of_copies this.1 hb)
  have hne : vTried[p] ≠ n := by
    rintro rfl
    rw [hinfo] at hinfoOld
    cases hinfoOld
    rw [hnew] at holdTried
    cases holdTried
  have holdAbsent : vTried[p] ∉ vNew := by
    refine not_mem_of_copies ?_ hu
    rw [copies_eraseAll h.sets, if_neg hne]
    have := ((h.placed _ infoOld hinfoOld).tried holdTried).2.1
    omega
  have hrest : (vTried.eraseIdx p).length < triedBucketSize := by
    have := h.triedSize _ (mem_of_getElem? hb)
    rw [length_eraseIdx_of_lt hplt]
    omega
  -- the old entry leaves the tried bucket, the other one joins it, and the new bucket follows
  have hdemoted := h.demote hinfoOld holdTried howedOld hb (getElem_cons_eraseIdx_perm hplt)
  have hpromoted := hdemoted.promote ((update_of_ne hne.symm _ _).trans hinfo) hnew hsuccess
    ((update_of_ne hne.symm _ _).trans howed) (getElem?_set_self hilt) hrest
  have hsettled := hpromoted.settle hu hperm holdAbsent (update_self _ _ owed).symm.le hlen
  have hplaced := hsettled.permute (getElem?_set_self (by rwa [length_set]))
    ((set_perm_cons_eraseIdx hplt n).trans (perm_append_singleton n _).symm)
  have howed' : update (update owed vTried[p] 1) vTried[p] (update owed vTried[p] 1 vTried[p] - 1) =
      owed := by
    rw [update_self, update_idem, Nat.sub_self, ← howedOld, update_eq_self]
  rw [howed'] at hplaced
  simpa only [set_set, Int.sub_add_cancel, Int.add_sub_cancel, update_comm hne] using hplaced

/-! ### Positions -/

/-- Two entries change positions. -/
theorem swap (hi : b.order[i]? = some n) (hj : b.order[j]? = some m)
    (hij : i ≠ j) (hn : b.info n = some info) (hm : b.info m = some info') : { b with
      info := update (update b.info n (some { info with nRandomPos := j })) m
        (some { info' with nRandomPos := i })
      order := (b.order.set i m).set j n }.Sound owed := by
  have hne : n ≠ m := by
    rintro rfl
    obtain ⟨infoI, hinfoI, hatI⟩ := h.atPosition hi
    obtain ⟨infoJ, hinfoJ, hatJ⟩ := h.atPosition hj
    rw [hinfoI] at hinfoJ
    cases hinfoJ
    omega
  have hm' : update b.info n (some { info with nRandomPos := (j : ℤ) }) m = some info' := by
    rw [update_of_ne hne.symm, hm]
  have hknown : ∀ k infoK, update (update b.info n (some { info with nRandomPos := (j : ℤ) })) m
      (some { info' with nRandomPos := (i : ℤ) }) k = some infoK → ∃ infoOld, b.info k =
      some infoOld ∧
        ∀ inTried inNew, infoOld.Placed inTried inNew → infoK.Placed inTried inNew := by
    intro k infoK hk
    simp only [update_apply] at hk
    split_ifs at hk with hkm hkn
    · cases hk
      exact ⟨info', hkm ▸ hm, fun _ _ hplaced => ⟨hplaced.1, hplaced.2, hplaced.3, hplaced.4⟩⟩
    · cases hk
      exact ⟨info, hkn ▸ hn, fun _ _ hplaced => ⟨hplaced.1, hplaced.2, hplaced.3, hplaced.4⟩⟩
    · exact ⟨infoK, hk, fun _ _ => id⟩
  obtain ⟨hilt, -⟩ := List.getElem?_eq_some_iff.mp hi
  obtain ⟨hjlt, -⟩ := List.getElem?_eq_some_iff.mp hj
  refine ⟨?_, ?_, ?_, ?_, ?_, h.sets, h.triedSize, h.newSize, h.triedTable, h.newTable,
    h.countTried, ?_⟩
  · intro k infoK hk
    obtain ⟨infoOld, hold, -⟩ := hknown k infoK hk
    exact h.fresh k infoOld hold
  · rw [map_update, map_update, entry_set (by rw [length_set]; exact hjlt), entry_set hilt]
    have hposn : (fun k => (b.info k).map (·.nRandomPos)) n = some (i : ℤ) :=
      h.order.right (by rw [entry_natCast, hi])
    have hposm : (fun k => (b.info k).map (·.nRandomPos)) m = some (j : ℤ) :=
      h.order.right (by rw [entry_natCast, hj])
    exact h.order.swap hposn hposm hne
  · have hip := (map_update_same (F := fun x : CAddrInfo => x.ip)
      (y := { info' with nRandomPos := (i : ℤ) }) hm' rfl).trans
      (map_update_same (F := fun x : CAddrInfo => x.ip)
      (y := { info with nRandomPos := (j : ℤ) }) hn rfl)
    rw [hip]
    exact h.addr
  · intro k infoK hk
    obtain ⟨infoOld, hold, hplaced⟩ := hknown k infoK hk
    exact hplaced _ _ (h.placed k infoOld hold)
  · intro k hk
    refine h.absent k ?_
    simp only [update_apply] at hk
    split_ifs at hk
    exact hk
  · rw [length_set, length_set]
    exact h.count

/-- A new entry, which is owed to a bucket. -/
theorem enter (haddr : b.addr info.ip = none)
    (hpos : info.nRandomPos = b.order.length) (hrefs : info.nRefCount = 1)
    (hnew : info.fInTried = false) (hsuccess : 0 ≤ info.nLastSuccess) : { b with
      next := b.next + 1
      info := update b.info b.next (some info)
      addr := update b.addr info.ip (some b.next)
      order := b.order ++ [b.next]
      nNew := b.nNew + 1 }.Sound (update owed b.next 1) := by
  have hnone : b.info b.next = none := by
    cases hold : b.info b.next with
    | none => rfl
    | some infoOld => exact absurd (h.fresh _ _ hold) (lt_irrefl _)
  obtain ⟨habsTried, habsNew, -⟩ := h.absent _ hnone
  refine ⟨?_, ?_, ?_, ?_, ?_, h.sets, h.triedSize, h.newSize, h.triedTable, h.newTable,
    h.countTried, ?_⟩
  · intro k infoK hk
    simp only [update_apply] at hk
    split_ifs at hk with hkn
    · simp only
      omega
    · have := h.fresh k infoK hk
      simp only
      omega
  · rw [map_update, entry_concat, map_some, hpos]
    refine h.order.insert ?_ ?_
    · simp only [hnone, map_none]
    · rw [entry_natCast, getElem?_eq_none le_rfl]
  · rw [map_update]
    refine h.addr.insert haddr ?_
    simp only [hnone, map_none]
  · intro k infoK hk
    simp only [update_apply] at hk ⊢
    split_ifs at hk ⊢ with hkn
    · cases hk
      rw [hkn, habsTried, habsNew]
      exact ⟨hrefs, fun htrue => absurd htrue (by rw [hnew]; exact false_ne_true),
        fun _ => ⟨rfl, by omega, by omega⟩, hsuccess⟩
    · exact h.placed k infoK hk
  · intro k hk
    simp only [update_apply] at hk
    split_ifs at hk with hkn
    rw [update_of_ne hkn]
    exact h.absent k hk
  · have := h.count
    simp only [length_append, length_singleton]
    omega

/-- The last entry of the list goes, and the bucket that has it loses it. -/
theorem leave (hinfo : b.info n = some info) (hlast : b.order[b.order.length - 1]? = some n)
    (hrefs : info.nRefCount = 1) (hb : b.newTable[i]? = some vNew) (hn : n ∈ vNew) :
    { b with
      info := update b.info n none
      addr := update b.addr info.ip none
      order := b.order.dropLast
      nNew := b.nNew - 1
      newTable := b.newTable.set i (vNew.erase n) }.Sound owed := by
  have hset := h.sets _ (mem_of_getElem? hb)
  have hplaced := h.placed n info hinfo
  have hcount := hplaced.refs
  have hcopies := copies_erase hb hset hn
  have hnew : info.fInTried = false := by
    by_contra htrue
    have := (hplaced.tried (by simpa using htrue)).2.1
    omega
  obtain ⟨hzero, -, -⟩ := hplaced.new hnew
  have hnil : b.order ≠ [] := by
    intro hnil
    rw [hnil] at hlast
    cases hlast
  refine ⟨?_, ?_, ?_, ?_, ?_, forall_mem_set h.sets (hset.erase n), h.triedSize,
    forall_mem_set h.newSize ?_, h.triedTable, length_set.trans h.newTable, h.countTried, ?_⟩
  · intro k infoK hk
    simp only [update_apply] at hk
    split_ifs at hk
    exact h.fresh k infoK hk
  · rw [map_update, entry_dropLast]
    exact h.order.erase (h.order.right (by rw [entry_natCast, hlast]))
  · rw [map_update]
    exact h.addr.erase (h.known_addr hinfo)
  · intro k infoK hk
    have hcopy := hcopies k
    simp only [update_apply] at hk
    split_ifs at hk hcopy with hkn
    rw [show copies k (b.newTable.set i (vNew.erase n)) = copies k b.newTable by omega]
    exact h.placed k infoK hk
  · intro k hk
    have hcopy := hcopies k
    simp only [update_apply] at hk
    split_ifs at hk hcopy with hkn
    · subst hkn
      exact ⟨hzero, by simp only; omega, by omega⟩
    · obtain ⟨habsTried, habsNew, hnone⟩ := h.absent k hk
      exact ⟨habsTried, by simp only; omega, hnone⟩
  · exact length_erase_le.trans (h.newSize _ (mem_of_getElem? hb))
  · have := h.count
    have := length_pos_iff.mpr hnil
    simp only [length_dropLast]
    omega

end

end Sound

end AddrBook

end Espers
