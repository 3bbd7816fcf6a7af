import Espers.Addr.Book

/-!
# Operations keep the books

Every function of the address manager ends without a failed assertion and keeps `Sound`.

* `selectTried_ok`, `shrinkNew_ok`, `makeTried_ok` : the functions that choose and move entries.
* `addToNew_ok` : an entry gets into a bucket, and the bucket loses another one when it is full.
* `AddrOp.exec_ok` : **every operation** on sound books ends, and leaves sound books.
-/

namespace Espers

open Exec Mutual Buckets List Option Function Nat AddrBook

namespace AddrMan

variable {E : AddrEnv} {o : Oracle} {owed : ℕ → ℕ} {s t : CAddrMan} {n m i j : ℕ}
  {info info' : CAddrInfo}

/-! ### Reading and writing entries -/

theorem infoAt_ok (h : s.book.info n = some info) : infoAt n s = .ok info s := by
  rw [infoAt, get_bind_apply, show s.mapInfo[n]? = some info from h]
  rfl

theorem assertThat_ok {c : Bool} {text : String} (h : c = true) :
    assertThat c text s = .ok () s := by
  rw [assertThat, if_pos h]
  rfl

theorem contains_of_info (h : s.book.info n = some info) : s.mapInfo.contains n = true := by
  rw [Std.TreeMap.contains_eq_isSome_getElem?, show s.mapInfo[n]? = some info from h]
  rfl

theorem find_ok (a : CNetAddr) : find a s =
    .ok ((s.book.addr a).bind fun nId => (s.book.info nId).map fun info => (nId, info)) s := rfl

theorem book_modify (h : s.book.info n = some info) (f : CAddrInfo → CAddrInfo) :
    { s with mapInfo := s.mapInfo.modify n f }.book =
      { s.book with info := update s.book.info n (some (f info)) } := by
  have hinfo : (fun a => (s.mapInfo.modify n f)[a]?) = update s.book.info n (some (f info)) := by
    rw [lookup_modify, show s.mapInfo[n]? = some info from h]
    rfl
  exact congrArg (fun g => { s.book with info := g }) hinfo

theorem getRandInt_lt (draw : ℕ) {k : ℕ} (h : 0 < k) : getRandInt draw k < k := by
  rw [getRandInt, if_neg (by omega)]
  exact mod_lt _ h

/-- Two entries change positions. -/
theorem swapRandom_ok (hi : s.vRandom[i]? = some n) (hj : s.vRandom[j]? = some m)
    (hij : i ≠ j) (hnm : n ≠ m) (hn : s.book.info n = some info) (hm : s.book.info m = some info') :
    ∃ t, swapRandom i j s = .ok () t ∧ t.book = { s.book with
      info := update (update s.book.info n (some { info with nRandomPos := j })) m
        (some { info' with nRandomPos := i })
      order := (s.book.order.set i m).set j n } := by
  refine ⟨{ s with
    mapInfo := (s.mapInfo.modify n fun info => { info with nRandomPos := j }).modify m
      fun info => { info with nRandomPos := i }
    vRandom := (s.vRandom.set i m).set j n }, ?_, ?_⟩
  · rw [swapRandom, if_neg hij, get_bind_apply, hi, hj]
    simp only
    rw [bind_of_ok (assertThat_ok (contains_of_info hn)),
      bind_of_ok (assertThat_ok (contains_of_info hm))]
    rfl
  · have hfirst := book_modify hn fun info => { info with nRandomPos := j }
    have hsecond := book_modify
      (n := m) (by rw [hfirst]; simp only [update_of_ne hnm.symm, hm] : _ = some info')
      fun info => { info with nRandomPos := i }
    have hboth := hsecond.trans (by rw [hfirst])
    exact congrArg (fun b : AddrBook => { b with order := (s.book.order.set i m).set j n }) hboth

/-- Two positions of sound books change. -/
theorem swapRandom_sound (h : s.book.Sound owed) (hi : i < s.vRandom.length)
    (hj : j < s.vRandom.length) : ∃ t, swapRandom i j s = .ok () t ∧ t.book.Sound owed ∧
    t.vRandom.length = s.vRandom.length := by
  by_cases hij : i = j
  · exact ⟨s, by rw [swapRandom, if_pos hij]; rfl, h, rfl⟩
  · have hget := getElem?_eq_getElem hi
    have hget' := getElem?_eq_getElem hj
    obtain ⟨info, hinfo, hpos⟩ := h.atPosition hget
    obtain ⟨info', hinfo', hpos'⟩ := h.atPosition hget'
    have hne : s.vRandom[i] ≠ s.vRandom[j] := by
      intro heq
      rw [heq, hinfo'] at hinfo
      cases hinfo
      omega
    obtain ⟨t, hrun, hbook⟩ := swapRandom_ok hget hget' hij hne hinfo hinfo'
    refine ⟨t, hrun, ?_, ?_⟩
    · rw [hbook]
      exact h.swap hget hget' hij hinfo hinfo'
    · have horder : t.vRandom = (s.vRandom.set i s.vRandom[j]).set j s.vRandom[i] :=
        congrArg order hbook
      rw [horder, length_set, length_set]

/-! ### Evictions from tried buckets -/

/-- What the loop of `SelectTried` carries: an entry of the bucket, and a position in it. -/
def Chosen (s : CAddrMan) (length : ℕ) (oldest : Option (ℕ × ℕ)) : Prop :=
  ∀ nOldest nOldestPos, oldest = some (nOldest, nOldestPos) →
    (∃ info, s.book.info nOldest = some info) ∧ nOldestPos < length

/-- The position that a round of `SelectTried` draws in a bucket of that size. -/
def drawnPos (o : Oracle) (size i : ℕ) : ℕ := getRandInt (o.rand (i + 1)) (size - i) + i

/-- The entries at two positions of a bucket change places. -/
def exchanged (vTried : List ℕ) (i nPos : ℕ) : List ℕ :=
  (vTried.set nPos (vTried.getD i 0)).set i (vTried.getD nPos 0)

/-- The rounds of `SelectTried` from round `i` on, as the values of `nTemp` and `nPos`. -/
def rounds (o : Oracle) : ℕ → ℕ → List ℕ → List (ℕ × ℕ)
  | 0, _, _ => []
  | more + 1, i, vTried =>
    if i < vTried.length then
      (vTried.getD (drawnPos o vTried.length i) 0, drawnPos o vTried.length i) ::
        rounds o more (i + 1) (exchanged vTried i (drawnPos o vTried.length i))
    else []

/-- The bucket after these rounds. -/
def shuffled (o : Oracle) : ℕ → ℕ → List ℕ → List ℕ
  | 0, _, vTried => vTried
  | more + 1, i, vTried =>
    if i < vTried.length then
      shuffled o more (i + 1) (exchanged vTried i (drawnPos o vTried.length i))
    else vTried

/-- The staler one of what a loop has kept and a newcomer. -/
def staler (time : ℕ → ℤ) (oldest : Option (ℕ × ℕ)) (r : ℕ × ℕ) : Option (ℕ × ℕ) :=
  match oldest with
  | none => some r
  | some old => if time r.1 < time old.1 then some r else some old

/-- When an entry was last a success. -/
def lastSuccess (s : CAddrMan) (nId : ℕ) : ℤ := ((s.book.info nId).map (·.nLastSuccess)).getD 0

theorem lastSuccess_of_info (h : s.book.info n = some info) :
    lastSuccess s n = info.nLastSuccess := by
  rw [lastSuccess, h]
  rfl

theorem staler_ne_none (time : ℕ → ℤ) (oldest : Option (ℕ × ℕ)) (r : ℕ × ℕ) :
    staler time oldest r ≠ none := by
  cases oldest with
  | none => simp [staler]
  | some old =>
    rw [staler]
    split_ifs <;> simp

variable {oldest : Option (ℕ × ℕ)}

theorem foldl_staler_ne_none {time : ℕ → ℤ} {rs : List (ℕ × ℕ)}
    (h : oldest ≠ none ∨ rs ≠ []) : rs.foldl (staler time) oldest ≠ none := by
  induction rs generalizing oldest with
  | nil => exact h.resolve_right (· rfl)
  | cons r rs ih => exact ih (.inl (staler_ne_none time oldest r))

theorem Chosen.staler {length : ℕ} {r : ℕ × ℕ} (time : ℕ → ℤ)
    (h : Chosen s length oldest) (hr : Chosen s length (some r)) :
    Chosen s length (staler time oldest r) := by
  cases oldest with
  | none => exact hr
  | some old =>
    rw [staler]
    split_ifs
    · exact hr
    · exact h

section Rounds

variable {vTried : List ℕ} {nPos : ℕ}

theorem getD_of_lt (h : i < vTried.length) : vTried[i]? = some (vTried.getD i 0) := by
  rw [getD_eq_getElem?_getD, getElem?_eq_getElem h]
  rfl

theorem drawnPos_lt (h : i < vTried.length) : drawnPos o vTried.length i < vTried.length := by
  have := getRandInt_lt (o.rand (i + 1)) (k := vTried.length - i) (by omega)
  rw [drawnPos]
  omega

theorem le_drawnPos (size : ℕ) : i ≤ drawnPos o size i := le_add_left _ _

theorem exchanged_perm (hi : i < vTried.length) (hp : nPos < vTried.length) :
    (exchanged vTried i nPos).Perm vTried := perm_swap (getD_of_lt hi) (getD_of_lt hp)

@[simp] theorem length_exchanged : (exchanged vTried i nPos).length = vTried.length := by
  rw [exchanged, length_set, length_set]

theorem shuffled_perm (more : ℕ) : (shuffled o more i vTried).Perm vTried := by
  induction more generalizing i vTried with
  | zero => exact .refl _
  | succ more ih =>
    rw [shuffled]
    split_ifs with hi
    · exact ih.trans (exchanged_perm hi (drawnPos_lt hi))
    · exact .refl _

theorem rounds_chosen (more : ℕ) (hknown : ∀ m ∈ vTried, ∃ info, s.book.info m = some info)
    (r : ℕ × ℕ) (hr : r ∈ rounds o more i vTried) : Chosen s vTried.length (some r) := by
  induction more generalizing i vTried with
  | zero => cases hr
  | succ more ih =>
    rw [rounds] at hr
    split_ifs at hr with hi
    · rcases mem_cons.mp hr with rfl | hr
      · intro nOldest nOldestPos heq
        cases heq
        exact ⟨hknown _ (mem_of_getElem? (getD_of_lt (drawnPos_lt hi))), drawnPos_lt hi⟩
      · have hperm := exchanged_perm hi (drawnPos_lt (o := o) hi)
        have := ih (fun m hm => hknown m (hperm.mem_iff.mp hm)) hr
        rwa [length_exchanged] at this
    · cases hr

/-- The loop of `SelectTried` keeps the stalest of its rounds. -/
theorem selectTriedLoop_eq {nKBucket : ℕ} (more : ℕ) {oldest : Option (ℕ × ℕ)}
    (hb : s.vvTried[nKBucket]? = some vTried)
    (hknown : ∀ m ∈ vTried, ∃ info, s.book.info m = some info)
    (holdest : Chosen s vTried.length oldest) :
    selectTriedLoop o nKBucket more i oldest s =
      .ok ((rounds o more i vTried).foldl (staler (lastSuccess s)) oldest)
        { s with vvTried := s.vvTried.set nKBucket (shuffled o more i vTried) } := by
  induction more generalizing s vTried i oldest with
  | zero =>
    rw [selectTriedLoop, rounds, shuffled, set_of_getElem? hb]
    rfl
  | succ more ih =>
    have hget : s.vvTried.getD nKBucket [] = vTried := by rw [getD_eq_getElem?_getD, hb]; rfl
    rw [selectTriedLoop, get_bind_apply, hget, rounds, shuffled]
    by_cases hi : i < vTried.length
    · rw [if_pos hi, if_pos hi, if_pos hi, ← drawnPos]
      have hlt := drawnPos_lt (o := o) hi
      generalize drawnPos o vTried.length i = nPos at hlt ⊢
      rw [modify_bind_apply, ← exchanged]
      obtain ⟨s1, hs1⟩ : ∃ s1 : CAddrMan,
        s1 = { s with vvTried := s.vvTried.set nKBucket (exchanged vTried i nPos) } := ⟨_, rfl⟩
      have hperm := exchanged_perm hi hlt
      have hb1 : s1.vvTried[nKBucket]? = some (exchanged vTried i nPos) := by
        rw [hs1]
        exact List.getElem?_set_self (List.getElem?_eq_some_iff.mp hb).1
      have hinfo1 : s1.book.info = s.book.info := by rw [hs1]; rfl
      have hknown1 : ∀ m ∈ exchanged vTried i nPos, ∃ info, s1.book.info m = some info := by
        intro m hm
        rw [hinfo1]
        exact hknown m (hperm.mem_iff.mp hm)
      obtain ⟨infoTemp, hinfoTemp⟩ := hknown _ (mem_of_getElem? (getD_of_lt hlt))
      have hchosenTemp : Chosen s vTried.length (some (vTried.getD nPos 0, nPos)) := by
        intro nOldest nOldestPos heq
        cases heq
        exact ⟨⟨infoTemp, hinfoTemp⟩, hlt⟩
      -- the rest of the loop, whatever it goes on with
      have hrest : ∀ oldest1, Chosen s vTried.length oldest1 →
          selectTriedLoop o nKBucket more (i + 1) oldest1 s1 =
            .ok ((rounds o more (i + 1) (exchanged vTried i nPos)).foldl
              (staler (lastSuccess s)) oldest1) { s with
              vvTried :=
                s.vvTried.set nKBucket (shuffled o more (i + 1) (exchanged vTried i nPos)) } := by
        intro oldest1 hchosen
        have htime : lastSuccess s1 = lastSuccess s := by
          funext m
          rw [lastSuccess, hinfo1, lastSuccess]
        rw [ih (s := s1) (i := i + 1) hb1 hknown1
          (by rw [length_exchanged, Chosen, hinfo1]; exact hchosen), htime, hs1]
        simp only [set_set]
      rw [← hs1, foldl_cons]
      cases oldest with
      | none => exact hrest _ hchosenTemp
      | some old =>
        obtain ⟨⟨infoOldest, hinfoOldest⟩, -⟩ := holdest old.1 old.2 rfl
        have hnext := holdest.staler (lastSuccess s) hchosenTemp
        rw [← hrest _ hnext, staler, lastSuccess_of_info hinfoTemp,
          lastSuccess_of_info hinfoOldest]
        rw [← hinfo1] at hinfoTemp hinfoOldest
        simp only
        rw [get_bind_apply, bind_of_ok (assertThat_ok (contains_of_info hinfoTemp)),
          bind_of_ok (infoAt_ok hinfoTemp), bind_of_ok (infoAt_ok hinfoOldest)]
    · rw [if_neg hi, if_neg hi, if_neg hi, set_of_getElem? hb]
      rfl

end Rounds

variable {vTried : List ℕ}

theorem selectTriedLoop_ok {nKBucket : ℕ} (more : ℕ) {i : ℕ}
    (hb : s.vvTried[nKBucket]? = some vTried)
    (hknown : ∀ m ∈ vTried, ∃ info, s.book.info m = some info)
    (holdest : Chosen s vTried.length oldest) :
    ∃ oldest' vTried', selectTriedLoop o nKBucket more i oldest s =
        .ok oldest' { s with vvTried := s.vvTried.set nKBucket vTried' } ∧
      vTried'.Perm vTried ∧ Chosen s vTried.length oldest' ∧
      (oldest ≠ none ∨ (0 < more ∧ i < vTried.length) → oldest' ≠ none) := by
  refine ⟨_, _, selectTriedLoop_eq more hb hknown holdest, shuffled_perm more, ?_, fun h =>
    foldl_staler_ne_none (h.imp_right ?_)⟩
  · have hall := rounds_chosen (o := o) (i := i) more hknown
    revert hall holdest
    generalize rounds o more i vTried = rs
    intro holdest hall
    induction rs generalizing oldest with
    | nil => exact holdest
    | cons r rs ih =>
      exact ih (holdest.staler _ (hall r (.head _))) fun r' hr' => hall r' (.tail _ hr')
  · rintro ⟨hmore, hi⟩
    obtain ⟨more, rfl⟩ := exists_eq_succ_of_ne_zero hmore.ne'
    rw [rounds, if_pos hi]
    simp

theorem selectTried_ok {nKBucket : ℕ} (hb : s.vvTried[nKBucket]? = some vTried)
    (hknown : ∀ m ∈ vTried, ∃ info, s.book.info m = some info) (hpos : 0 < vTried.length) :
    ∃ nPos vTried', selectTried o nKBucket s =
        .ok (some nPos) { s with vvTried := s.vvTried.set nKBucket vTried' } ∧
      vTried'.Perm vTried ∧ nPos < vTried'.length := by
  obtain ⟨oldest, vTried', hrun, hperm, hchosen, hsome⟩ :=
    selectTriedLoop_ok (o := o) triedEntriesInspectOnEvict (i := 0) hb hknown
      (show Chosen s vTried.length none from nofun)
  obtain ⟨r, rfl⟩ := ne_none_iff_exists'.mp (hsome (.inr ⟨by decide, hpos⟩))
  obtain ⟨nOldest, nOldestPos⟩ := r
  refine ⟨nOldestPos, vTried', ?_, hperm, ?_⟩
  · rw [selectTried, bind_of_ok hrun]
    rfl
  · rw [hperm.length_eq]
    exact (hchosen nOldest nOldestPos rfl).2

/-! ### Evictions from new buckets -/

/-- The books are those of `b`, except for what they say of one entry. -/
structure ExceptAt (t : CAddrMan) (n : ℕ) (b : AddrBook) : Prop where
  book : t.book = { b with info := t.book.info }
  others : ∀ k, k ≠ n → t.book.info k = b.info k

/-- An entry whose references are being counted down goes to the end of the list. -/
theorem swapToEnd_ok {s1 : CAddrMan} {info1 : CAddrInfo} (h : s.book.Sound owed)
    (hinfo : s.book.info n = some info)
    (hbook1 : s1.book = { s.book with info := update s.book.info n (some info1) }) :
    ∃ (t : CAddrMan) (b : AddrBook) (infoLast : CAddrInfo),
      swapRandom (toUnsigned info.nRandomPos) (toUnsigned (s1.vRandom.length - 1)) s1 = .ok () t ∧
      ExceptAt t n b ∧ b.Sound owed ∧ b.newTable = s.vvNew ∧ b.order[b.order.length - 1]? = some n ∧
      b.info n = some infoLast ∧ infoLast.nRefCount = info.nRefCount ∧ infoLast.ip = info.ip := by
  obtain ⟨i, hpos, hi⟩ := h.position hinfo
  have hilt : i < s.vRandom.length := (List.getElem?_eq_some_iff.mp hi).1
  obtain ⟨last, hlast⟩ : ∃ last, last = s.vRandom.length - 1 := ⟨_, rfl⟩
  have horder1 : s1.vRandom = s.vRandom := congrArg order hbook1
  have hposition : toUnsigned info.nRandomPos = i := by
    rw [hpos, toUnsigned, if_pos (Int.natCast_nonneg i), Int.toNat_natCast]
  have hend : toUnsigned (s1.vRandom.length - 1) = last := by
    rw [horder1, toUnsigned, if_pos (by omega)]
    omega
  rw [hposition, hend]
  by_cases hil : i = last
  · refine ⟨s1, s.book, info, ?_, ⟨?_, ?_⟩, h, rfl, ?_, hinfo, rfl, rfl⟩
    · rw [swapRandom, if_pos hil]
      rfl
    · rw [hbook1]
    · intro k hk
      rw [hbook1]
      exact update_of_ne hk _ _
    · rw [← hi, hil, hlast]
      rfl
  · have hlt : last < s.vRandom.length := by omega
    have hget := getElem?_eq_getElem hlt
    obtain ⟨infoLast, hinfoLast, hposLast⟩ := h.atPosition hget
    have hne : n ≠ s.vRandom[last] := by
      intro heq
      rw [← heq, hinfo] at hinfoLast
      cases hinfoLast
      omega
    have hinfo1 : s1.book.info n = some info1 := by
      rw [hbook1]
      exact update_self _ _ _
    have hinfoLast1 : s1.book.info s.vRandom[last] = some infoLast := by
      rw [hbook1]
      exact (update_of_ne hne.symm _ _).trans hinfoLast
    obtain ⟨t, hrun, hbook⟩ := swapRandom_ok (by rw [horder1]; exact hi)
      (by rw [horder1]; exact hget) hil hne hinfo1 hinfoLast1
    refine ⟨t, _, { info with nRandomPos := last }, hrun, ⟨?_, ?_⟩,
      h.swap hi hget hil hinfo hinfoLast, rfl, ?_, ?_, rfl, rfl⟩
    · rw [hbook, hbook1]
    · intro k hk
      rw [hbook, hbook1]
      simp only [update_apply, if_neg hk]
    · simp only [length_set]
      rw [show s.book.order.length - 1 = last from hlast.symm]
      exact getElem?_set_self (by rw [length_set]; exact hlt)
    · simp only [update_of_ne hne, update_self]

variable {vNew : List ℕ} {nUBucket : ℕ}

/-- A reference of an entry goes, with the bucket that had it, and the entry goes with its last
one. -/
theorem release_ok (h : s.book.Sound owed)
    (hb : s.vvNew[nUBucket]? = some vNew) (hn : n ∈ vNew) : ∃ t, release nUBucket n s = .ok () t ∧
    t.book.Sound owed ∧ t.vvNew = s.vvNew.set nUBucket (vNew.erase n) := by
  obtain ⟨info, hinfo⟩ := h.known_of_new hb hn
  obtain ⟨s1, hs1⟩ : ∃ s1 : CAddrMan, s1 = { s with
    mapInfo := s.mapInfo.modify n fun info => { info with nRefCount := info.nRefCount - 1 } } :=
      ⟨_, rfl⟩
  have hbook1 : s1.book = { s.book with
      info := update s.book.info n
        (some { info with nRefCount := info.nRefCount - 1 }) } := by
    rw [hs1]
    exact book_modify hinfo _
  have hinfo1 : s1.book.info n = some { info with nRefCount := info.nRefCount - 1 } := by
    rw [hbook1]
    exact update_self _ _ _
  have herase : ∀ t : CAddrMan, t.vvNew = s.vvNew →
      (t.vvNew.modify nUBucket fun vNew => vNew.erase n) = s.vvNew.set nUBucket (vNew.erase n) := by
    intro t ht
    rw [ht, modify_of_getElem? hb]
  rw [release, updateInfo, modify_bind_apply, ← hs1]
  by_cases hrefs : info.nRefCount = 1
  · -- the entry goes from its position at the end
    obtain ⟨t, b, infoLast, hrun, hexcept, hsound, htable, hlast, hinfoLast, hrefsLast, hip⟩ :=
      swapToEnd_ok h hinfo hbook1
    have hvv : t.vvNew = s.vvNew := (congrArg newTable hexcept.book).trans htable
    have hdelete : deleteUnreferenced n s1 = .ok () { t with
        vRandom := t.vRandom.dropLast
        mapAddr := t.mapAddr.erase info.ip
        mapInfo := t.mapInfo.erase n
        nNew := t.nNew - 1 } := by
      rw [deleteUnreferenced, bind_of_ok (infoAt_ok hinfo1), if_pos (by simp only; omega),
        get_bind_apply, bind_of_ok hrun]
      rfl
    rw [bind_of_ok hdelete]
    refine ⟨_, rfl, ?_, herase _ hvv⟩
    have hleave := hsound.leave hinfoLast hlast (hrefsLast.trans hrefs) (i := nUBucket)
      (by rw [htable]; exact hb) hn
    have hinfoEq : (fun k => (t.mapInfo.erase n)[k]?) = update b.info n none := by
      rw [lookup_erase]
      funext k
      by_cases hk : k = n
      · rw [hk, update_self, update_self]
      · rw [update_of_ne hk, update_of_ne hk]
        exact hexcept.others k hk
    have haddrEq : (fun a => (t.mapAddr.erase info.ip)[a]?) = update b.addr infoLast.ip none := by
      rw [lookup_erase, hip]
      exact congrArg (fun f => update f info.ip none) (congrArg addr hexcept.book)
    have hnext : t.nIdCount = b.next := congrArg next hexcept.book
    have horder : t.vRandom = b.order := congrArg order hexcept.book
    have hnTried : t.nTried = b.nTried := congrArg nTried hexcept.book
    have hvvTried : t.vvTried = b.triedTable := congrArg triedTable hexcept.book
    have hnNew : t.nNew = b.nNew := congrArg nNew hexcept.book
    simp only [CAddrMan.book, hinfoEq, haddrEq, hnext, horder, hnTried, hvvTried,
      hnNew, herase t hvv]
    rwa [htable] at hleave
  · -- other buckets have the entry
    have hkept : deleteUnreferenced n s1 = .ok () s1 := by
      rw [deleteUnreferenced, bind_of_ok (infoAt_ok hinfo1), if_neg (by simp only; omega)]
      rfl
    rw [bind_of_ok hkept]
    have hvv1 : s1.vvNew = s.vvNew := by rw [hs1]
    refine ⟨_, rfl, ?_, herase s1 hvv1⟩
    have hbook : { s1 with vvNew := s1.vvNew.modify nUBucket fun vNew => vNew.erase n }.book =
        { s1.book with newTable := s.vvNew.set nUBucket (vNew.erase n) } :=
      congrArg (fun v => { s1.book with newTable := v }) (herase s1 hvv1)
    rw [hbook, hbook1]
    exact h.release hb hn hinfo hrefs

theorem findTerrible_ok (hknown : ∀ m ∈ vNew, ∃ info, s.book.info m = some info)
    (k : ℕ) : ∃ terrible, findTerrible o vNew k s = .ok terrible s ∧ ∀ m, terrible = some m →
    m ∈ vNew := by
  induction vNew generalizing k with
  | nil => exact ⟨none, rfl, nofun⟩
  | cons n vNew ih =>
    obtain ⟨info, hinfo⟩ := hknown n mem_cons_self
    rw [findTerrible, get_bind_apply, bind_of_ok (assertThat_ok (contains_of_info hinfo)),
      bind_of_ok (infoAt_ok hinfo)]
    split_ifs
    · refine ⟨some n, rfl, ?_⟩
      rintro m ⟨⟩
      exact mem_cons_self
    · obtain ⟨terrible, hrun, hmem⟩ := ih (fun m hm => hknown m (.tail _ hm)) (k + 1)
      exact ⟨terrible, hrun, fun m hm => .tail _ (hmem m hm)⟩

/-- The oldest is one of the bucket, and there is one when a position is in the bucket. -/
theorem findOldest_ok (positions : List ℕ)
    (hknown : ∀ m ∈ vNew, ∃ info, s.book.info m = some info) (nI : ℕ) (oldest : Option ℕ)
    (holdest : ∀ m, oldest = some m → ∃ info, s.book.info m = some info) :
    ∃ oldest', findOldest positions vNew nI oldest s = .ok oldest' s ∧
      (∀ m, oldest' = some m → m ∈ vNew ∨ oldest = some m) ∧
      ((oldest ≠ none ∨ ∃ i ∈ positions, nI ≤ i ∧ i < nI + vNew.length) → oldest' ≠ none) := by
  induction vNew generalizing nI oldest with
  | nil =>
    refine ⟨oldest, rfl, fun m hm => .inr hm, ?_⟩
    rintro (h | ⟨i, -, hlow, hhigh⟩)
    · exact h
    · rw [length_nil] at hhigh
      omega
  | cons n vNew ih =>
    obtain ⟨info, hinfo⟩ := hknown n mem_cons_self
    have hknown' : ∀ m ∈ vNew, ∃ info, s.book.info m = some info :=
      fun m hm => hknown m (.tail _ hm)
    unfold findOldest
    by_cases hcontains : positions.contains nI = true
    · rw [if_pos hcontains]
      -- the loop goes on with an entry of the bucket, or with the one it had
      have hrest : ∀ m, (m = n ∨ oldest = some m) → (∃ info, s.book.info m = some info) →
          ∃ oldest', findOldest positions vNew (nI + 1) (some m) s = .ok oldest' s ∧
            (∀ m, oldest' = some m → m ∈ n :: vNew ∨ oldest = some m) ∧ oldest' ≠ none := by
        intro m hm hinfoM
        obtain ⟨oldest', hrun, hmem, hne⟩ := ih hknown' (nI + 1) (some m) (by
          rintro m' ⟨⟩
          exact hinfoM)
        refine ⟨oldest', hrun, fun m' hm' => ?_, hne (.inl (by simp))⟩
        rcases hmem m' hm' with hin | heq
        · exact .inl (.tail _ hin)
        · obtain rfl : m = m' := some.inj heq
          rcases hm with rfl | hm
          · exact .inl mem_cons_self
          · exact .inr hm
      cases oldest with
      | none =>
        obtain ⟨oldest', hrun, hmem, hne⟩ := hrest n (.inl rfl) ⟨info, hinfo⟩
        exact ⟨oldest', hrun, hmem, fun _ => hne⟩
      | some nOldest =>
        obtain ⟨infoOldest, hinfoOldest⟩ := holdest nOldest rfl
        simp only
        rw [get_bind_apply, bind_of_ok (assertThat_ok (contains_of_info hinfo)),
          bind_of_ok (infoAt_ok hinfo), bind_of_ok (infoAt_ok hinfoOldest)]
        split_ifs
        · obtain ⟨oldest', hrun, hmem, hne⟩ := hrest n (.inl rfl) ⟨info, hinfo⟩
          exact ⟨oldest', hrun, hmem, fun _ => hne⟩
        · obtain ⟨oldest', hrun, hmem, hne⟩ := hrest nOldest (.inr rfl) ⟨infoOldest, hinfoOldest⟩
          exact ⟨oldest', hrun, hmem, fun _ => hne⟩
    · rw [if_neg hcontains]
      obtain ⟨oldest', hrun, hmem, hne⟩ := ih hknown' (nI + 1) oldest holdest
      refine ⟨oldest', hrun, fun m hm => (hmem m hm).imp_left (.tail _), fun h =>
        hne (h.imp_right ?_)⟩
      rintro ⟨i, hi, hlow, hhigh⟩
      rw [length_cons] at hhigh
      refine ⟨i, hi, ?_, by omega⟩
      by_contra hle
      obtain rfl : i = nI := by omega
      exact hcontains (by simpa using hi)

/-- `ShrinkNew` makes room in a bucket that is not empty. -/
theorem shrinkNew_ok (h : s.book.Sound owed)
    (hb : s.vvNew[nUBucket]? = some vNew) (hpos : 0 < vNew.length) :
    ∃ r t m, shrinkNew o nUBucket s = .ok r t ∧ t.book.Sound owed ∧ m ∈ vNew ∧
      t.vvNew = s.vvNew.set nUBucket (vNew.erase m) := by
  have hknown : ∀ m ∈ vNew, ∃ info, s.book.info m = some info := fun m hm => h.known_of_new hb hm
  obtain ⟨terrible, hterrible, hmemTerrible⟩ := findTerrible_ok (o := o) hknown 1
  rw [shrinkNew, get_bind_apply, hb]
  simp only
  rw [bind_of_ok hterrible]
  cases terrible with
  | some m =>
    obtain ⟨t, hrun, hsound, hvv⟩ := release_ok h hb (hmemTerrible m rfl)
    refine ⟨0, t, m, ?_, hsound, hmemTerrible m rfl, hvv⟩
    simp only
    rw [bind_of_ok hrun]
    rfl
  | none =>
    obtain ⟨oldest, hrunOldest, hmemOldest, hne⟩ := findOldest_ok
      ([1, 2, 3, 4].map fun k => getRandInt (o.rand k) vNew.length) hknown 0 none nofun
    have hfirst := getRandInt_lt (o.rand 1) hpos
    obtain ⟨m, rfl⟩ := ne_none_iff_exists'.mp
      (hne (.inr ⟨getRandInt (o.rand 1) vNew.length, by simp, zero_le _, by omega⟩))
    have hmem : m ∈ vNew := (hmemOldest m rfl).resolve_right nofun
    obtain ⟨info, hinfo⟩ := hknown m hmem
    obtain ⟨t, hrun, hsound, hvv⟩ := release_ok h hb hmem
    refine ⟨1, t, m, ?_, hsound, hmem, hvv⟩
    simp only
    rw [bind_of_ok hrunOldest]
    simp only
    rw [get_bind_apply, bind_of_ok (assertThat_ok (contains_of_info hinfo)), bind_of_ok hrun]
    rfl

/-! ### Entries get into buckets -/

theorem perm_insertSet {l : List ℕ} (h : n ∉ l) :
    (Inverted.insertSet (· ≤ ·) n l).Perm (n :: l) := by
  rw [Inverted.insertSet, if_neg h]
  exact perm_orderedInsert _ _ _

theorem insert_sound (h : s.book.Sound owed) (hb : s.vvNew[nUBucket]? = some vNew) (hn : n ∉ vNew)
    (howed : 1 ≤ owed n) (hlen : vNew.length < newBucketSize) :
    { s with vvNew := s.vvNew.modify nUBucket (Inverted.insertSet (· ≤ ·) n) }.book.Sound
      (update owed n (owed n - 1)) := by
  have hsettle := h.settle hb (perm_insertSet hn) hn howed hlen
  rw [modify_of_getElem? hb]
  exact hsettle

/-- No reference is owed. -/
def Settled (s : CAddrMan) : Prop := s.book.Sound fun _ => 0

theorem update_owed (n : ℕ) : update (update (fun _ : ℕ => 0) n 1) n
    (update (fun _ : ℕ => 0) n 1 n - 1) = fun _ => 0 := by
  funext m
  simp only [update_apply]
  split_ifs <;> rfl

/-- An entry that is owed to a bucket gets into it, after another one has left it where it is
full. -/
theorem insertNew_ok
    (h : s.book.Sound (update (fun _ => 0) n 1)) (hb : s.vvNew[nUBucket]? = some vNew)
    (hn : n ∉ vNew) : ∃ t, (if vNew.length = newBucketSize then do
        let _ ← shrinkNew o nUBucket
        modify fun s : CAddrMan =>
          { s with vvNew := s.vvNew.modify nUBucket (Inverted.insertSet (· ≤ ·) n) }
      else modify fun s : CAddrMan =>
        { s with vvNew := s.vvNew.modify nUBucket (Inverted.insertSet (· ≤ ·) n) } : AddrM Unit) s =
        .ok () t ∧ Settled t := by
  have howed : 1 ≤ update (fun _ : ℕ => 0) n 1 n := by rw [update_self]
  by_cases hfull : vNew.length = newBucketSize
  · rw [if_pos hfull]
    obtain ⟨r, t, m, hrun, hsound, hmem, hvv⟩ := shrinkNew_ok (o := o) h hb (by rw [hfull]; decide)
    have hb' : t.vvNew[nUBucket]? = some (vNew.erase m) := by
      rw [hvv]
      exact List.getElem?_set_self (List.getElem?_eq_some_iff.mp hb).1
    have hlen : (vNew.erase m).length < newBucketSize := by
      rw [length_erase_of_mem hmem, hfull]
      decide
    have hinsert := insert_sound hsound hb' (fun hin => hn (mem_of_mem_erase hin)) howed hlen
    rw [update_owed] at hinsert
    exact ⟨_, (bind_of_ok hrun).trans rfl, hinsert⟩
  · rw [if_neg hfull]
    have hle := h.newSize _ (mem_of_getElem? hb)
    have hinsert := insert_sound h hb hn howed (lt_of_le_of_ne hle hfull)
    rw [update_owed] at hinsert
    exact ⟨_, rfl, hinsert⟩

theorem bucket_of_lt {vv : List (List ℕ)} {i : ℕ} (h : i < vv.length) :
    vv[i]? = some (vv.getD i []) := by
  rw [getD_eq_getElem?_getD, getElem?_eq_getElem h]
  rfl

/-- An entry that other buckets may have gets into a bucket. -/
theorem addToNew_ok (h : Settled s) (hinfo : s.book.info n = some info)
    (hnew : info.fInTried = false) (hrefs : info.nRefCount ≠ newBucketsPerAddress)
    (source : CNetAddr) : ∃ t, addToNew E o n source s = .ok () t ∧ Settled t := by
  have hlt : getNewBucket E info source < s.vvNew.length :=
    (mod_lt _ (by decide)).trans_eq (Eq.symm h.newTable)
  have hb := bucket_of_lt hlt
  rw [addToNew, bind_of_ok (infoAt_ok hinfo)]
  rw [get_bind_apply]
  by_cases hin : (s.vvNew.getD (getNewBucket E info source) []).contains n = true
  · rw [if_pos hin]
    exact ⟨s, rfl, h⟩
  · rw [if_neg hin, updateInfo, modify_bind_apply]
    have hplaced := (h.placed n info hinfo).new hnew
    have hcount := (h.placed n info hinfo).refs
    have howe := h.owe hinfo hnew (by rw [newBucketsPerAddress] at hrefs; omega)
    rw [← book_modify hinfo fun info => { info with nRefCount := info.nRefCount + 1 }] at howe
    exact insertNew_ok howe hb (by simpa using hin)

/-! ### Entries become tried -/

/-- The new bucket that an evicted entry moves to. -/
def moveBack (E : AddrEnv) (s : CAddrMan) (infoOld : CAddrInfo) (nOrigin : ℕ) : ℕ :=
  if (s.vvNew.getD (getNewBucket E infoOld infoOld.source) []).length < newBucketSize then
    getNewBucket E infoOld infoOld.source
  else nOrigin

/-- The books after an eviction. -/
def evicted (E : AddrEnv) (s : CAddrMan) (nKBucket n nOrigin nPos old : ℕ)
    (info infoOld : CAddrInfo) (vTried : List ℕ) : AddrBook :=
  { s.book with
    info := update
      (update s.book.info old (some { infoOld with fInTried := false, nRefCount := 1 })) n
      (some { info with fInTried := true })
    triedTable := s.book.triedTable.set nKBucket (vTried.set nPos n)
    nNew := s.book.nNew + 1
    newTable := s.book.newTable.modify (moveBack E s infoOld nOrigin)
      (Inverted.insertSet (· ≤ ·) old) }

/-- A full bucket gives up the entry at the position that `SelectTried` gives. -/
theorem evictTried_of_select {nKBucket nPos : ℕ} (nOrigin : ℕ) {vTried vTried' : List ℕ}
    (hb : s.vvTried[nKBucket]? = some vTried)
    (hknown : ∀ m ∈ vTried, ∃ info, s.book.info m = some info)
    (hinfo : s.book.info n = some info) (hn : n ∉ vTried)
    (hselect : selectTried o nKBucket s =
      .ok (some nPos) { s with vvTried := s.vvTried.set nKBucket vTried' })
    (hperm : vTried'.Perm vTried) (hlt : nPos < vTried'.length) :
    ∃ t old infoOld, evictTried E o nKBucket n nOrigin s = .ok () t ∧
      vTried'[nPos]? = some old ∧ s.book.info old = some infoOld ∧
      t.book = evicted E s nKBucket n nOrigin nPos old info infoOld vTried' := by
  obtain ⟨old, hold⟩ : ∃ old, vTried'[nPos]? = some old := ⟨_, getElem?_eq_getElem hlt⟩
  have holdMem := hperm.mem_iff.mp (mem_of_getElem? hold)
  obtain ⟨infoOld, hinfoOld⟩ := hknown old holdMem
  have hne : n ≠ old := fun heq => hn (heq ▸ holdMem)
  have hkb := (List.getElem?_eq_some_iff.mp hb).1
  obtain ⟨s1, hs1⟩ : ∃ s1 : CAddrMan, s1 = { s with vvTried := s.vvTried.set nKBucket vTried' } :=
    ⟨_, rfl⟩
  have hbucket1 : (s1.vvTried.getD nKBucket [])[nPos]? = some old := by
    rw [hs1, getD_eq_getElem?_getD, getElem?_set_self hkb]
    exact hold
  have hinfoOld1 : s1.book.info old = some infoOld := by rw [hs1]; exact hinfoOld
  obtain ⟨s2, hs2⟩ : ∃ s2 : CAddrMan, s2 = { s1 with
    mapInfo := s1.mapInfo.modify old fun info => { info with fInTried := false, nRefCount :=
      1 } } := ⟨_, rfl⟩
  have hinfo2 : s2.book.info = update s.book.info old
      (some { infoOld with fInTried := false, nRefCount := 1 }) := by
    have hbook := book_modify hinfoOld1 fun info => { info with fInTried := false, nRefCount := 1 }
    rw [← hs2] at hbook
    rw [hbook, hs1]
    rfl
  obtain ⟨s3, hs3⟩ : ∃ s3 : CAddrMan, s3 = { s2 with
    vvNew := s2.vvNew.modify (moveBack E s2 infoOld nOrigin) (Inverted.insertSet (· ≤ ·) old)
    nNew := s2.nNew + 1
    vvTried := s2.vvTried.modify nKBucket fun vTried => vTried.set nPos n } := ⟨_, rfl⟩
  have hinfo3 : s3.book.info n = some info := by
    have hsame : s3.book.info = s2.book.info := by rw [hs3]; rfl
    rw [hsame, hinfo2]
    exact (update_of_ne hne _ _).trans hinfo
  refine ⟨{ s3 with mapInfo := s3.mapInfo.modify n fun info => { info with fInTried := true } },
    old, infoOld, ?_, hold, hinfoOld, ?_⟩
  · rw [evictTried, bind_of_ok hselect, ← hs1]
    simp only
    rw [get_bind_apply, hbucket1]
    simp only
    rw [get_bind_apply, bind_of_ok (assertThat_ok (contains_of_info hinfoOld1)),
      bind_of_ok (infoAt_ok hinfoOld1), updateInfo, modify_bind_apply, ← hs2, hs3]
    rfl
  · rw [book_modify hinfo3, hs3]
    show mk _ (update s2.book.info n _) _ _ _ _ _ _ = _
    rw [hinfo2, hs2, hs1]
    rw [modify_of_getElem? (getElem?_set_self hkb), set_set]
    rfl

theorem evictTried_ok {nKBucket nOrigin : ℕ} (hb : s.vvTried[nKBucket]? = some vTried)
    (hknown : ∀ m ∈ vTried, ∃ info, s.book.info m = some info) (hpos : 0 < vTried.length)
    (hinfo : s.book.info n = some info) (hn : n ∉ vTried) :
    ∃ t nPos vTried' old infoOld, evictTried E o nKBucket n nOrigin s = .ok () t ∧
    vTried'.Perm vTried ∧ vTried'[nPos]? = some old ∧ s.book.info old = some infoOld ∧
      t.book = evicted E s nKBucket n nOrigin nPos old info infoOld vTried' := by
  obtain ⟨nPos, vTried', hselect, hperm, hlt⟩ := selectTried_ok (o := o) hb hknown hpos
  obtain ⟨t, old, infoOld, hrun, hold, hinfoOld, hbook⟩ :=
    evictTried_of_select (E := E) nOrigin hb hknown hinfo hn hselect hperm hlt
  exact ⟨t, nPos, vTried', old, infoOld, hrun, hperm, hold, hinfoOld, hbook⟩

/-- The books when an entry has left its new buckets. -/
def uprooted (s : CAddrMan) (n : ℕ) (info : CAddrInfo) : AddrBook :=
  { s.book with
    info := update s.book.info n (some { info with nRefCount := 0 })
    nNew := s.book.nNew - 1
    newTable := s.book.newTable.map (List.erase · n) }

/-- An entry leaves its new buckets, and gets into its tried bucket or into the place of another. -/
theorem makeTried_eq {nOrigin : ℕ} {vOrigin : List ℕ} (h : Settled s)
    (hinfo : s.book.info n = some info) (horigin : s.vvNew[nOrigin]? = some vOrigin)
    (hn : n ∈ vOrigin) :
    ∃ s1 : CAddrMan, s1.book = uprooted s n info ∧ makeTried E o n nOrigin s =
      if (s.vvTried.getD (getTriedBucket E info) []).length < triedBucketSize then
        .ok () { s1 with
          vvTried := s1.vvTried.modify (getTriedBucket E info) fun vTried => vTried ++ [n]
          nTried := s1.nTried + 1
          mapInfo := s1.mapInfo.modify n fun info => { info with fInTried := true } }
      else evictTried E o (getTriedBucket E info) n nOrigin s1 := by
  have hcontains : (s.vvNew.getD nOrigin []).contains n = true := by
    rw [getD_eq_getElem?_getD, horigin]
    simpa using hn
  obtain ⟨s1, hs1⟩ : ∃ s1 : CAddrMan, s1 = { s with
    mapInfo := s.mapInfo.modify n fun info =>
      { info with nRefCount := info.nRefCount - (s.vvNew.countP fun vNew => vNew.contains n) }
    vvNew := s.vvNew.map fun vNew => vNew.erase n
    nNew := s.nNew - 1 } := ⟨_, rfl⟩
  have hzero : info.nRefCount - (s.vvNew.countP fun vNew => vNew.contains n) = 0 := by
    have hrefs := (h.placed n info hinfo).refs
    have hcount := copies_eq_countP h.sets n
    have hcountP : s.vvNew.countP (fun vNew => vNew.contains n) = s.vvNew.countP (n ∈ ·) := by
      simp
    rw [show s.book.newTable = s.vvNew from rfl] at hcount hrefs
    omega
  have hbook1 : s1.book = uprooted s n info := by
    have hbook := book_modify hinfo fun info =>
      { info with nRefCount := info.nRefCount - (s.vvNew.countP fun vNew => vNew.contains n) }
    simp only [hzero] at hbook
    rw [hs1]
    exact congrArg (fun b : AddrBook => { b with
      nNew := s.book.nNew - 1
      newTable := s.book.newTable.map (List.erase · n) }) hbook
  have hinfo1 : s1.book.info n = some { info with nRefCount := 0 } := by
    rw [hbook1]
    exact update_self _ _ _
  have hvvTried1 : s1.vvTried = s.vvTried := by rw [hs1]
  have hbucket : getTriedBucket E { info with nRefCount := 0 } = getTriedBucket E info := rfl
  refine ⟨s1, hbook1, ?_⟩
  rw [makeTried, get_bind_apply, bind_of_ok (assertThat_ok hcontains), modify_bind_apply, ← hs1,
    bind_of_ok (infoAt_ok hinfo1),
    bind_of_ok (assertThat_ok (c := ({ info with nRefCount := 0 } : CAddrInfo).nRefCount == 0) rfl)]
  simp only [hbucket]
  rw [get_bind_apply, hvvTried1]
  by_cases hlen : (s.vvTried.getD (getTriedBucket E info) []).length < triedBucketSize
  · rw [if_pos hlen, if_pos hlen, ← hvvTried1]
    rfl
  · rw [if_neg hlen, if_neg hlen]

/-- An entry that has left its new buckets becomes tried, in a bucket with room or in the place of
another. -/
theorem makeTried_ok {nOrigin : ℕ} {vOrigin : List ℕ} (h : Settled s)
    (hinfo : s.book.info n = some info) (hnew : info.fInTried = false)
    (hsuccess : 0 < info.nLastSuccess) (horigin : s.vvNew[nOrigin]? = some vOrigin)
    (hn : n ∈ vOrigin) : ∃ t, makeTried E o n nOrigin s = .ok () t ∧ Settled t := by
  obtain ⟨s1, hbook1, hmake⟩ := makeTried_eq (E := E) (o := o) h hinfo horigin hn
  rw [uprooted] at hbook1
  have hinfo1 : s1.book.info n = some { info with nRefCount := 0 } := by
    rw [hbook1]
    exact update_self _ _ _
  obtain ⟨nKBucket, hk⟩ : ∃ k, k = getTriedBucket E info := ⟨_, rfl⟩
  have hvvTried1 : s1.vvTried = s.vvTried := congrArg triedTable hbook1
  have hlt : nKBucket < s.vvTried.length := by
    rw [hk]
    exact (mod_lt _ (by decide)).trans_eq (Eq.symm h.triedTable)
  have hb := bucket_of_lt hlt
  rw [hmake, ← hk]
  by_cases hlen : (s.vvTried.getD nKBucket []).length < triedBucketSize
  · rw [if_pos hlen]
    refine ⟨_, rfl, ?_⟩
    have hbook := book_modify hinfo1 fun info => { info with fInTried := true }
    have hmoved : ∀ b : AddrBook, b = { s1.book with
        info := update s1.book.info n
          (some { info with nRefCount := 0, fInTried := true }) } →
        { b with
          nTried := s1.nTried + 1
          triedTable := s1.vvTried.modify nKBucket fun vTried => vTried ++ [n] }.Sound fun _ =>
            0 := by
      rintro _ rfl
      have hnTried1 : s1.nTried = s.nTried := congrArg nTried hbook1
      rw [hvvTried1, hnTried1, modify_of_getElem? hb, hbook1]
      simp only [update_idem]
      exact h.promote hinfo hnew hsuccess rfl hb hlen
    exact hmoved _ hbook
  · rw [if_neg hlen]
    have hnotTried := not_mem_of_copies ((h.placed n info hinfo).new hnew).1 hb
    have hothers : ∀ m infoM, m ≠ n →
      (s1.book.info m = some infoM ↔ s.book.info m = some infoM) := by
      intro m infoM hmn
      rw [hbook1]
      simp only [update_of_ne hmn]
    obtain ⟨t, nPos, vTried', old, infoOld, hrun, hperm, hold, hinfoOld, hbook⟩ :=
      evictTried_ok (E := E) (o := o) (by rw [hvvTried1]; exact hb) (by
        intro m hm
        obtain ⟨infoM, hinfoM⟩ := h.known_of_tried hb hm
        exact ⟨infoM, (hothers m infoM fun heq => hnotTried (heq ▸ hm)).mpr hinfoM⟩)
        (by rw [triedBucketSize] at hlen; omega) hinfo1 hnotTried
    refine ⟨t, hrun, ?_⟩
    have holdMem := hperm.mem_iff.mp (mem_of_getElem? hold)
    have hne : old ≠ n := fun heq => hnotTried (heq ▸ holdMem)
    rw [hothers old infoOld hne] at hinfoOld
    have hvvNew1 : s1.vvNew = s.vvNew.map (List.erase · n) := congrArg newTable hbook1
    -- there is certainly place there
    have hroom : ∃ vNew, s1.vvNew[moveBack E s1 infoOld nOrigin]? = some vNew ∧
      vNew.length < newBucketSize := by
      rw [moveBack]
      split_ifs with hspace
      · have hu : getNewBucket E infoOld infoOld.source < s1.vvNew.length := by
          rw [hvvNew1, length_map]
          exact (mod_lt _ (by decide)).trans_eq (Eq.symm h.newTable)
        exact ⟨_, bucket_of_lt hu, hspace⟩
      · refine ⟨vOrigin.erase n, by rw [hvvNew1, getElem?_map, horigin]; rfl, ?_⟩
        have := h.newSize _ (mem_of_getElem? horigin)
        have := length_pos_of_mem hn
        rw [length_erase_of_mem hn]
        omega
    obtain ⟨vNew, hbNew, hlenNew⟩ := hroom
    have holdNew : old ∉ vNew := by
      have holdTried : infoOld.fInTried = true := by
        by_contra hfalse
        exact absurd holdMem
          (not_mem_of_copies ((h.placed old infoOld hinfoOld).new (by simpa using hfalse)).1 hb)
      rw [hvvNew1] at hbNew
      refine @not_mem_of_copies _ _ _ (s.book.newTable.map (List.erase · n)) _ _ ?_ hbNew
      rw [copies_eraseAll h.sets, if_neg hne]
      exact ((h.placed old infoOld hinfoOld).tried holdTried).2.1
    have hexchange := (h.permute hb hperm).exchange hinfo hnew hsuccess rfl (p := nPos)
      (u := moveBack E s1 infoOld nOrigin) (getElem?_set_self hlt) hold hinfoOld rfl
      (by rw [hvvNew1] at hbNew; exact hbNew) hlenNew (perm_insertSet holdNew)
    have hsame : evicted E s1 nKBucket n nOrigin nPos old { info with nRefCount := 0 } infoOld
      vTried' = { s.book with
        info := update
          (update s.book.info n (some { info with nRefCount := 0, fInTried := true })) old
          (some { infoOld with fInTried := false, nRefCount := 1 })
        triedTable := (s.vvTried.set nKBucket vTried').set nKBucket (vTried'.set nPos n)
        newTable := (s.book.newTable.map (List.erase · n)).set (moveBack E s1 infoOld nOrigin)
          (Inverted.insertSet (· ≤ ·) old vNew) } := by
      rw [evicted, hbook1]
      refine AddrBook.ext rfl ?_ rfl rfl rfl ?_ ?_ ?_
      · simp only
        rw [update_comm hne, update_idem]
      · simp only [set_set]
        rfl
      · simp only
        omega
      · rw [hvvNew1] at hbNew
        exact modify_of_getElem? hbNew
    rw [Settled, hbook, hsame]
    exact hexchange

/-! ### Every operation -/

theorem updateInfo_ok {f : CAddrInfo → CAddrInfo} (h : Settled s)
    (hinfo : s.book.info n = some info) (hpos : (f info).nRandomPos = info.nRandomPos)
    (hip : (f info).ip = info.ip) (hrefs : (f info).nRefCount = info.nRefCount)
    (htried : (f info).fInTried = info.fInTried) (hsuccess : 0 ≤ (f info).nLastSuccess)
    (hpositive : info.fInTried = true → 0 < (f info).nLastSuccess) :
    ∃ t, updateInfo n f s = .ok () t ∧ Settled t ∧ t.book.info n = some (f info) ∧
    t.vvNew = s.vvNew := by
  refine ⟨_, rfl, ?_, ?_, rfl⟩
  · rw [Settled, book_modify hinfo f]
    obtain ⟨hcount, hin, hnew, -⟩ := h.placed n info hinfo
    refine h.touch hinfo hpos hip ⟨hrefs.trans hcount, fun htrue => ?_, fun hfalse => ?_, hsuccess⟩
    · rw [htried] at htrue
      exact ⟨(hin htrue).1, (hin htrue).2.1, hpositive htrue⟩
    · exact hnew (htried ▸ hfalse)
  · rw [book_modify hinfo f]
    exact update_self _ _ _

theorem find_none (h : s.book.addr a = none) : find a s = .ok none s := by
  rw [find_ok, h]
  rfl

theorem find_some {a : CNetAddr} (h : Settled s) (ha : s.book.addr a = some n) :
    ∃ info, s.book.info n = some info ∧ info.ip = a ∧ find a s = .ok (some (n, info)) s := by
  obtain ⟨info, hinfo, hip⟩ := h.of_addr ha
  refine ⟨info, hinfo, hip, ?_⟩
  rw [find_ok, ha, bind_some, hinfo]
  rfl

/-- An entry that is not found is passed over, and what is done for one that is found keeps the
books settled. -/
theorem find_run {f : Option (ℕ × CAddrInfo) → AddrM Unit} (h : Settled s)
    (hnone : f none s = .ok () s)
    (hsome : ∀ n info, s.book.info n = some info →
      ∃ t, f (some (n, info)) s = .ok () t ∧ Settled t) :
    ∃ t, (find a >>= f) s = .ok () t ∧ Settled t := by
  cases ha : s.book.addr a with
  | none => exact ⟨s, by rw [bind_of_ok (find_none ha), hnone], h⟩
  | some n =>
    obtain ⟨info, hinfo, -, hfind⟩ := find_some h ha
    rw [bind_of_ok hfind]
    exact hsome n info hinfo

theorem findBucket_spec {nRnd nB : ℕ} {vvNew : List (List ℕ)}
    (h : findBucket nRnd n vvNew = some nB) : ∃ vNew, vvNew[nB]? = some vNew ∧ n ∈ vNew := by
  have hmem := mem_of_find?_eq_some h
  obtain ⟨k, hk, rfl⟩ := mem_map.mp hmem
  have hlt : (k + nRnd) % vvNew.length < vvNew.length := mod_lt _ (by
    have := mem_range.mp hk
    omega)
  exact ⟨_, bucket_of_lt hlt, by simpa using find?_some h⟩

theorem good_ok (h : Settled s) (addr : CService) {nTime : ℤ} (hpositive : 0 < nTime) :
    ∃ t, good E o addr nTime s = .ok () t ∧ Settled t := by
  rw [good]
  refine find_run h rfl fun n info hinfo => ?_
  simp only
  by_cases haddr : info.toCService ≠ addr
  · rw [if_pos haddr]
    exact ⟨s, rfl, h⟩
  · rw [if_neg haddr]
    obtain ⟨t, hrun, hsettled, hinfoT, -⟩ := updateInfo_ok h hinfo
      (f := fun info => { info with
        nLastSuccess := nTime, nLastTry := nTime, nTime := toUnsignedTime nTime, nAttempts := 0 })
      rfl rfl rfl rfl hpositive.le fun _ => hpositive
    rw [bind_of_ok hrun]
    cases htried : info.fInTried with
    | true => exact ⟨t, rfl, hsettled⟩
    | false =>
      simp only [Bool.false_eq_true, if_false]
      rw [get_bind_apply]
      cases hfound : findBucket (getRandInt (o.rand 0) t.vvNew.length) n t.vvNew with
      | none => exact ⟨t, rfl, hsettled⟩
      | some nB =>
        obtain ⟨vNew, hb, hn⟩ := findBucket_spec hfound
        exact makeTried_ok hsettled hinfoT htried hpositive hb hn

/-- A new entry gets into its first bucket. -/
theorem createNew_ok (h : Settled s) {addr : CAddress} (ha : s.book.addr addr.ip = none)
    (source : CNetAddr) (f : CAddrInfo → CAddrInfo)
    (hf : ∀ info, (f info).nRandomPos = info.nRandomPos ∧ (f info).ip = info.ip ∧
      (f info).nRefCount = info.nRefCount ∧ (f info).fInTried = info.fInTried ∧
      (f info).nLastSuccess = info.nLastSuccess) :
    ∃ t, (do
        let nId ← create addr source
        updateInfo nId f
        modify fun s : CAddrMan => { s with nNew := s.nNew + 1 }
        addToNew E o nId source
        return true : AddrM Bool) s = .ok true t ∧ Settled t := by
  obtain ⟨n, hn⟩ : ∃ n, n = s.nIdCount := ⟨_, rfl⟩
  obtain ⟨info, hinfo⟩ : ∃ info, info =
    f { CAddrInfo.init addr source with nRandomPos := s.vRandom.length } := ⟨_, rfl⟩
  obtain ⟨hpos, hip, hrefs, htried, hsuccess⟩ :=
    hf { CAddrInfo.init addr source with nRandomPos := s.vRandom.length }
  rw [← hinfo] at hpos hip hrefs htried hsuccess
  have hnone : s.book.info n = none := by
    cases hold : s.book.info n with
    | none => rfl
    | some infoOld =>
      have := h.fresh n infoOld hold
      exact absurd (hn ▸ this) (lt_irrefl _)
  -- the entry, before a reference is noted
  obtain ⟨s1, hs1⟩ : ∃ s1 : CAddrMan, s1 = { s with
    nIdCount := s.nIdCount + 1
    mapInfo := (s.mapInfo.insert n { CAddrInfo.init addr source with nRandomPos :=
      s.vRandom.length }).modify n f
    mapAddr := s.mapAddr.insert addr.ip n
    vRandom := s.vRandom ++ [n]
    nNew := s.nNew + 1 } := ⟨_, rfl⟩
  have hbook1 : s1.book = { s.book with
      next := s.book.next + 1
      info := update s.book.info n (some info)
      addr := update s.book.addr addr.ip (some n)
      order := s.book.order ++ [n]
      nNew := s.book.nNew + 1 } := by
    rw [hs1]
    refine AddrBook.ext rfl ?_ ?_ rfl rfl rfl rfl rfl
    · show (fun a => ((s.mapInfo.insert n _).modify n f)[a]?) = _
      rw [lookup_modify, lookup_insert, Std.TreeMap.getElem?_insert_self, map_some,
        update_idem, ← hinfo]
      rfl
    · show (fun a => (s.mapAddr.insert addr.ip n)[a]?) = _
      rw [lookup_insert]
      rfl
  have hinfo1 : s1.book.info n = some info := by
    rw [hbook1]
    exact update_self _ _ _
  have hcreate : ∀ k : ℕ → AddrM Bool, (create addr source >>= fun nId => do
      updateInfo nId f
      modify fun s : CAddrMan => { s with nNew := s.nNew + 1 }
      k nId) s = k n s1 := by
    intro k
    rw [hs1, hn]
    rfl
  rw [hcreate]
  have hvvNew1 : s1.vvNew = s.vvNew := by rw [hs1]
  have hlt : getNewBucket E info source < s1.vvNew.length := by
    rw [hvvNew1]
    exact (mod_lt _ (by decide)).trans_eq (Eq.symm h.newTable)
  have hb := bucket_of_lt hlt
  have hnot : n ∉ s1.vvNew.getD (getNewBucket E info source) [] := by
    rw [hvvNew1] at hb ⊢
    exact not_mem_of_copies (h.absent n hnone).2.1 hb
  have hadd : ∃ t, addToNew E o n source s1 = .ok () t ∧ Settled t := by
    rw [addToNew, bind_of_ok (infoAt_ok hinfo1)]
    rw [get_bind_apply, if_neg (by simpa using hnot), updateInfo, modify_bind_apply]
    obtain ⟨held, hheld⟩ : ∃ i : CAddrInfo, i = { info with nRefCount := info.nRefCount + 1 } :=
      ⟨_, rfl⟩
    have henter := h.enter (show s.book.addr held.ip = none from hheld ▸ hip ▸ ha) (hheld ▸ hpos)
      (by simp only [hheld, hrefs]; rfl) (hheld ▸ htried) (hheld ▸ hsuccess.ge)
    subst hheld
    refine insertNew_ok ?_ hb hnot
    rw [book_modify hinfo1, hbook1]
    rw [show s.book.next = n from hn.symm] at henter
    simp only [update_idem]
    rw [hip] at henter
    rw [show s.book.next = n from hn.symm]
    exact henter
  obtain ⟨t, hrun, hsettled⟩ := hadd
  exact ⟨t, by rw [bind_of_ok hrun]; rfl, hsettled⟩

theorem add_ok (h : Settled s) (addr : CAddress) (source : CNetAddr) (nTimePenalty : ℤ) :
    ∃ fNew t, add E o addr source nTimePenalty s = .ok fNew t ∧ Settled t := by
  rw [add]
  split_ifs
  · exact ⟨false, s, rfl, h⟩
  · exact ⟨false, s, rfl, h⟩
  · cases ha : s.book.addr addr.ip with
    | none =>
      rw [bind_of_ok (find_none ha)]
      obtain ⟨t, hrun, hsettled⟩ := createNew_ok (E := E) (o := o) h ha source
        (fun info => { info with nTime := toUnsignedTime (max 0 (info.nTime - nTimePenalty)) })
        fun _ => ⟨rfl, rfl, rfl, rfl, rfl⟩
      exact ⟨true, t, hrun, hsettled⟩
    | some n =>
      obtain ⟨info, hinfo, -, hfind⟩ := find_some h ha
      rw [bind_of_ok hfind]
      simp only
      have hplaced := h.placed n info hinfo
      obtain ⟨t, hrun, hsettled, hinfoT, -⟩ := updateInfo_ok h hinfo
        (f := fun info => info.announced addr (o.now 0) nTimePenalty) rfl rfl rfl rfl
        hplaced.success fun htrue => (hplaced.tried htrue).2.2
      rw [bind_of_ok hrun, bind_of_ok (infoAt_ok hinfoT)]
      split_ifs with h1 h2 h3 h4
      · exact ⟨false, t, rfl, hsettled⟩
      · exact ⟨false, t, rfl, hsettled⟩
      · exact ⟨false, t, rfl, hsettled⟩
      · exact ⟨false, t, rfl, hsettled⟩
      · obtain ⟨t', hrun', hsettled'⟩ :=
          addToNew_ok (E := E) (o := o) hsettled hinfoT (by simpa using h2) h3 source
        exact ⟨false, t', by rw [bind_of_ok hrun']; rfl, hsettled'⟩

theorem attempt_ok (h : Settled s) (addr : CService) (nTime : ℤ) :
    ∃ t, attempt addr nTime s = .ok () t ∧ Settled t := by
  rw [attempt]
  refine find_run h rfl fun n info hinfo => ?_
  simp only
  have hplaced := h.placed n info hinfo
  split_ifs
  · exact ⟨s, rfl, h⟩
  · obtain ⟨t, hrun, hsettled, -⟩ := updateInfo_ok h hinfo
      (f := fun info => { info with nLastTry := nTime, nAttempts := info.nAttempts + 1 })
      rfl rfl rfl rfl hplaced.success fun htrue => (hplaced.tried htrue).2.2
    exact ⟨t, hrun, hsettled⟩

theorem connected_ok (h : Settled s) (addr : CService) (nTime : ℤ) :
    ∃ t, connected addr nTime s = .ok () t ∧ Settled t := by
  rw [connected]
  refine find_run h rfl fun n info hinfo => ?_
  simp only
  have hplaced := h.placed n info hinfo
  split_ifs
  · exact ⟨s, rfl, h⟩
  · obtain ⟨t, hrun, hsettled, -⟩ := updateInfo_ok h hinfo
      (f := fun info => { info with nTime := toUnsignedTime nTime }) rfl rfl rfl rfl
      hplaced.success fun htrue => (hplaced.tried htrue).2.2
    exact ⟨t, hrun, hsettled⟩
  · exact ⟨s, rfl, h⟩

/-- The loop of `Select_` finds an entry in every bucket that is not empty. -/
theorem selectLoop_ok {vv : List (List ℕ)} (hvv : 0 < vv.length)
    (hknown : ∀ bucket ∈ vv, ∀ m ∈ bucket, ∃ info, s.book.info m = some info) (draws k failed : ℕ) :
    ∃ r, selectLoop E o vv draws k failed s = .ok r s := by
  induction draws generalizing k failed with
  | zero => exact ⟨none, rfl⟩
  | succ draws ih =>
    have hlt := getRandInt_lt (o.rand k) hvv
    have hb := bucket_of_lt hlt
    rw [selectLoop]
    split_ifs with hempty
    · exact ih _ _
    · have hpos := getRandInt_lt (o.rand (k + 1)) (pos_of_ne_zero hempty)
      obtain ⟨m, hm⟩ : ∃ m,
        (vv.getD (getRandInt (o.rand k) vv.length) [])[getRandInt (o.rand (k + 1))
          (vv.getD (getRandInt (o.rand k) vv.length) []).length]? = some m :=
        ⟨_, getElem?_eq_getElem hpos⟩
      obtain ⟨info, hinfo⟩ := hknown _ (mem_of_getElem? hb) m (mem_of_getElem? hm)
      rw [hm]
      simp only
      rw [get_bind_apply, bind_of_ok (assertThat_ok (contains_of_info hinfo)),
        bind_of_ok (infoAt_ok hinfo)]
      split_ifs
      · exact ⟨_, rfl⟩
      · exact ih _ _

theorem select_ok (h : Settled s) (draws : ℕ) (nUnkBias : ℤ) :
    ∃ r, select E o draws nUnkBias s = .ok r s := by
  rw [select, get_bind_apply]
  split_ifs
  · exact ⟨_, rfl⟩
  · refine selectLoop_ok
      (by rw [show s.vvTried.length = triedBucketCount from h.triedTable]; decide) ?_ _ _ _
    intro bucket hbucket m hm
    obtain ⟨i, hi⟩ := getElem?_of_mem hbucket
    exact h.known_of_tried hi hm
  · refine selectLoop_ok (by rw [show s.vvNew.length = newBucketCount from h.newTable]; decide) ?_ _
      _ _
    intro bucket hbucket m hm
    obtain ⟨i, hi⟩ := getElem?_of_mem hbucket
    exact h.known_of_new hi hm

theorem getAddrLoop_ok {positions : List ℕ} (h : Settled s)
    (hpos : ∀ i ∈ positions, i < s.vRandom.length) : ∃ vAddr t, getAddrLoop o positions s =
    .ok vAddr t ∧ Settled t := by
  induction positions generalizing s with
  | nil => exact ⟨[], s, rfl, h⟩
  | cons i positions ih =>
    have hi := hpos i mem_cons_self
    have hrand := getRandInt_lt (o.rand i) (k := s.vRandom.length - i) (by omega)
    obtain ⟨t, hrun, hsettled, hlen⟩ := swapRandom_sound h hi
      (j := getRandInt (o.rand i) (s.vRandom.length - i) + i) (by omega)
    have hget := getElem?_eq_getElem (hlen ▸ hi : i < t.vRandom.length)
    obtain ⟨info, hinfo, -⟩ := hsettled.atPosition hget
    obtain ⟨vAddr, t', hrun', hsettled'⟩ := ih hsettled fun j hj => hlen ▸ hpos j (.tail _ hj)
    refine ⟨info.toCAddress :: vAddr, t', ?_, hsettled'⟩
    refine (bind_of_ok hrun).trans ?_
    rw [get_bind_apply, hget]
    simp only
    rw [get_bind_apply, bind_of_ok (assertThat_ok (contains_of_info hinfo)),
      bind_of_ok (infoAt_ok hinfo), bind_of_ok hrun']
    rfl

theorem getAddr_ok (h : Settled s) : ∃ vAddr t, getAddr o s = .ok vAddr t ∧ Settled t := by
  refine getAddrLoop_ok h fun i hi => ?_
  have := mem_range.mp hi
  omega

end AddrMan

/-! ### Runs -/

/-- What happens to an address manager. -/
inductive AddrOp where
  | add (addr : CAddress) (source : CNetAddr) (nTimePenalty : ℤ)
  | good (addr : CService) (nTime : ℤ)
  | attempt (addr : CService) (nTime : ℤ)
  | connected (addr : CService) (nTime : ℤ)
  | select (draws : ℕ) (nUnkBias : ℤ)
  | getAddr

namespace AddrOp

/-- The operation, without its answer. -/
def exec (E : AddrEnv) (o : Oracle) : AddrOp → AddrMan.AddrM Unit
  | .add addr source nTimePenalty => do
    let _ ← AddrMan.add E o addr source nTimePenalty
  | .good addr nTime => AddrMan.good E o addr nTime
  | .attempt addr nTime => AddrMan.attempt addr nTime
  | .connected addr nTime => AddrMan.connected addr nTime
  | .select draws nUnkBias => do
    let _ ← AddrMan.select E o draws nUnkBias
  | .getAddr => do
    let _ ← AddrMan.getAddr o

/-- The times of `Good` are positive. -/
def Positive : AddrOp → Prop
  | .good _ nTime => 0 < nTime
  | _ => True

variable {E : AddrEnv} {o : Oracle} {s : CAddrMan}

/-- **Every operation on settled books ends without a failed assertion**, and leaves settled
books. -/
theorem exec_ok (h : AddrMan.Settled s) {op : AddrOp} (hop : op.Positive) :
    ∃ t, op.exec E o s = .ok () t ∧ AddrMan.Settled t := by
  cases op with
  | add addr source nTimePenalty =>
    obtain ⟨fNew, t, hrun, hsettled⟩ := AddrMan.add_ok (E := E) (o := o) h addr source nTimePenalty
    exact ⟨t, (bind_of_ok hrun).trans rfl, hsettled⟩
  | good addr nTime => exact AddrMan.good_ok h addr hop
  | attempt addr nTime => exact AddrMan.attempt_ok h addr nTime
  | connected addr nTime => exact AddrMan.connected_ok h addr nTime
  | select draws nUnkBias =>
    obtain ⟨r, hrun⟩ := AddrMan.select_ok (E := E) (o := o) h draws nUnkBias
    exact ⟨s, (bind_of_ok hrun).trans rfl, h⟩
  | getAddr =>
    obtain ⟨vAddr, t, hrun, hsettled⟩ := AddrMan.getAddr_ok (o := o) h
    exact ⟨t, (bind_of_ok hrun).trans rfl, hsettled⟩

end AddrOp

/-- The states that operations reach from the new address manager, with any random numbers and
times. -/
inductive AddrRun (E : AddrEnv) : CAddrMan → Prop
  | start : AddrRun E .empty
  | step {s t : CAddrMan} (op : AddrOp) (o : Oracle) (hrun : AddrRun E s) (hop : op.Positive)
      (hexec : op.exec E o s = .ok () t) : AddrRun E t

theorem AddrRun.settled {E : AddrEnv} {s : CAddrMan} (h : AddrRun E s) : AddrMan.Settled s := by
  induction h with
  | start => exact .empty
  | step op o _ hop hexec ih =>
    obtain ⟨t, hrun, hsettled⟩ := op.exec_ok (E := E) (o := o) ih hop
    rw [hexec] at hrun
    cases hrun
    exact hsettled

end Espers
