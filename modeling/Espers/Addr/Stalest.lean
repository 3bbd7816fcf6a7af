import Mathlib.Data.Int.ConditionallyCompleteOrder
import Mathlib.Data.List.MinMax
import Espers.Addr.Consistency

/-!
# The entry that `SelectTried` chooses

`SelectTried` looks for the stalest of the first few entries of a shuffled bucket, and shuffles
while it looks.  It remembers the position that an entry was drawn from.  The entry has left that
position by then: round `i` puts what it draws at position `i`.

* `shuffled_eq` : on return the inspected entries are the first ones of the bucket.
* `holdsStalest_iff` : what is at the remembered position.
* `selectTried_stalest_iff` : **the position holds the stalest inspected entry, and `MakeTried`
  evicts it, exactly if** the entry had been drawn from its own place or from the place of another
  one that is as stale.
-/

namespace Espers

open Exec Mutual Buckets List Function Nat
open Option hiding map

namespace AddrMan

variable {E : AddrEnv} {o : Oracle} {s t : CAddrMan} {vTried xs : List ℕ} {time : ℕ → ℤ}
  {n m i j : ℕ} {info : CAddrInfo}

/-! ### The rounds -/

/-- The entries that `SelectTried` inspects, in the order of the rounds. -/
def inspected (o : Oracle) (vTried : List ℕ) : List ℕ :=
  (rounds o triedEntriesInspectOnEvict 0 vTried).map Prod.fst

theorem take_exchanged {nPos : ℕ} (hi : i < vTried.length) (h : i ≤ nPos) :
    (exchanged vTried i nPos).take (i + 1) = vTried.take i ++ [vTried.getD nPos 0] := by
  have hset : (exchanged vTried i nPos)[i]? = some (vTried.getD nPos 0) := by
    rw [exchanged, getElem?_set_self (by rwa [length_set])]
  rw [take_add_one, hset, toList_some, exchanged, take_set_of_le (le_refl i), take_set_of_le h]

theorem shuffled_eq (more i : ℕ) (vTried : List ℕ) : ∃ rest, shuffled o more i vTried =
    vTried.take i ++ (rounds o more i vTried).map Prod.fst ++ rest := by
  induction more generalizing i vTried with
  | zero =>
    refine ⟨vTried.drop i, ?_⟩
    rw [shuffled, rounds, map_nil, append_nil, take_append_drop]
  | succ more ih =>
    rw [shuffled, rounds]
    by_cases hi : i < vTried.length
    · obtain ⟨rest, hrest⟩ := ih (i + 1)
        (exchanged vTried i (drawnPos o vTried.length i))
      refine ⟨rest, ?_⟩
      rw [if_pos hi, if_pos hi, hrest, take_exchanged hi (le_drawnPos _), map_cons,
        append_assoc (vTried.take i), singleton_append]
    · refine ⟨vTried.drop i, ?_⟩
      rw [if_neg hi, if_neg hi, map_nil, append_nil, take_append_drop]

theorem rounds_position {more : ℕ} {r : ℕ × ℕ} (h : (rounds o more i vTried)[j]? = some r) :
    r.2 = drawnPos o vTried.length (i + j) := by
  induction more generalizing i j vTried with
  | zero => cases h
  | succ more ih =>
    rw [rounds] at h
    split_ifs at h with hi
    · cases j with
      | zero =>
        cases h
        rfl
      | succ j =>
        have := ih h
        rwa [length_exchanged, add_assoc, add_comm 1 j] at this
    · cases h

theorem foldl_staler (rs : List (ℕ × ℕ)) :
    rs.foldl (staler time) none = rs.argmin fun r => time r.1 := by
  induction rs using List.reverseRecOn with
  | nil => rfl
  | append_singleton rs r ih =>
    rw [foldl_append, ih, argmin_concat, foldl_cons, foldl_nil]
    cases rs.argmin fun r => time r.1 with
    | none => rfl
    | some old => rfl

theorem argmin_map_fst (rs : List (ℕ × ℕ)) :
    (rs.map Prod.fst).argmin time = (rs.argmin fun r => time r.1).map Prod.fst := by
  induction rs using List.reverseRecOn with
  | nil => rfl
  | append_singleton rs r ih =>
    rw [map_append, map_singleton, argmin_concat, ih, argmin_concat]
    cases rs.argmin fun r => time r.1 with
    | none => rfl
    | some old =>
      simp only [map_some]
      split_ifs <;> rfl

theorem argmin_rounds (hnodup : (inspected o vTried).Nodup) :
    ((rounds o triedEntriesInspectOnEvict 0 vTried).argmin fun r => time r.1).map Prod.snd =
      ((inspected o vTried).argmin time).map fun n =>
        drawnPos o vTried.length ((inspected o vTried).idxOf n) := by
  rw [show (inspected o vTried).argmin time = _ from argmin_map_fst _, Option.map_map]
  cases hr : (rounds o triedEntriesInspectOnEvict 0 vTried).argmin fun r => time r.1 with
  | none => rfl
  | some r =>
    obtain ⟨j, hj⟩ := getElem?_of_mem (argmin_mem hr)
    have hentry : (inspected o vTried)[j]? = some r.1 := by
      rw [inspected, getElem?_map, hj]
      rfl
    obtain ⟨hlt, hget⟩ := List.getElem?_eq_some_iff.mp hentry
    rw [map_some, map_some, comp_apply, ← hget, hnodup.idxOf_getElem,
      rounds_position hj, Nat.zero_add]

/-! ### What is at the position -/

/-- The position of the bucket holds the stalest of some entries. -/
def HoldsStalest (time : ℕ → ℤ) (xs vTried : List ℕ) (nPos : ℕ) : Prop :=
  ∃ n, vTried[nPos]? = some n ∧ n ∈ xs ∧ ∀ m ∈ xs, time n ≤ time m

/-- The round of the stalest inspected entry draws a position that ends up with an inspected entry
that is as stale: its own, or the one of another round. -/
def DrawsInspected (time : ℕ → ℤ) (o : Oracle) (vTried : List ℕ) : Prop :=
  ∃ n ∈ (inspected o vTried).argmin time,
    ∃ m ∈ (inspected o vTried)[drawnPos o vTried.length ((inspected o vTried).idxOf n)]?,
      time m = time n

/-- What is in the first places of a list of different elements is not behind them. -/
theorem holdsStalest_append {rest : List ℕ} (hnodup : (xs ++ rest).Nodup)
    (hn : n ∈ xs.argmin time) (nPos : ℕ) :
    HoldsStalest time xs (xs ++ rest) nPos ↔ ∃ m ∈ xs[nPos]?, time m = time n := by
  constructor
  · rintro ⟨m, hget, hm, hleast⟩
    have hlt : nPos < xs.length := by
      by_contra hge
      rw [getElem?_append_right (Nat.le_of_not_lt hge)] at hget
      exact (nodup_append.mp hnodup).2.2 m hm m (mem_of_getElem? hget) rfl
    rw [getElem?_append_left hlt] at hget
    exact ⟨m, hget, le_antisymm (hleast n (argmin_mem hn)) (le_of_mem_argmin hm hn)⟩
  · rintro ⟨m, hget, htime⟩
    have hlt := (List.getElem?_eq_some_iff.mp hget).1
    refine ⟨m, (getElem?_append_left hlt).trans hget, mem_of_getElem? hget, ?_⟩
    intro a ha
    rw [htime]
    exact le_of_mem_argmin ha hn

/-- The bucket on return, at the position that is given back. -/
theorem selectTried_eq {nKBucket : ℕ} (hb : s.vvTried[nKBucket]? = some vTried)
    (hknown : ∀ m ∈ vTried, ∃ info, s.book.info m = some info) (hnodup : vTried.Nodup) :
    ∃ vTried', selectTried o nKBucket s =
        .ok (((inspected o vTried).argmin (lastSuccess s)).map fun n =>
          drawnPos o vTried.length ((inspected o vTried).idxOf n))
          { s with vvTried := s.vvTried.set nKBucket vTried' } ∧
      vTried'.Perm vTried ∧ ∃ rest, vTried' = inspected o vTried ++ rest := by
  have hperm : (shuffled o triedEntriesInspectOnEvict 0 vTried).Perm vTried :=
    shuffled_perm triedEntriesInspectOnEvict
  obtain ⟨rest, hrest⟩ := shuffled_eq (o := o) triedEntriesInspectOnEvict 0 vTried
  have hinspected : (inspected o vTried).Nodup := by
    have := hperm.nodup_iff.mpr hnodup
    rw [hrest] at this
    exact (nodup_append.mp this).1
  refine ⟨_, ?_, hperm, rest, hrest⟩
  have hchosen : Chosen s vTried.length none := by
    intro _ _ h
    cases h
  rw [selectTried, bind_of_ok
    (selectTriedLoop_eq (o := o) triedEntriesInspectOnEvict (i := 0) hb hknown hchosen),
    foldl_staler, ← argmin_rounds hinspected]
  rfl

/-- **The position holds the stalest inspected entry exactly if** its round drew the place of an
inspected entry that is as stale. -/
theorem holdsStalest_iff {rest : List ℕ} (hnodup : vTried.Nodup)
    (hperm : (inspected o vTried ++ rest).Perm vTried) :
    (∃ nPos, (((inspected o vTried).argmin time).map fun n =>
        drawnPos o vTried.length ((inspected o vTried).idxOf n)) = some nPos ∧
      HoldsStalest time (inspected o vTried) (inspected o vTried ++ rest) nPos) ↔
      DrawsInspected time o vTried := by
  have hnodup' := hperm.nodup_iff.mpr hnodup
  constructor
  · rintro ⟨nPos, hpos, hholds⟩
    obtain ⟨n, hn, rfl⟩ := map_eq_some_iff.mp hpos
    exact ⟨n, hn, (holdsStalest_append hnodup' hn _).mp hholds⟩
  · rintro ⟨n, hn, hm⟩
    exact ⟨_, map_eq_some_iff.mpr ⟨n, hn, rfl⟩, (holdsStalest_append hnodup' hn _).mpr hm⟩

/-! ### Evictions -/

theorem known_of_bucket (h : Settled s) (hb : s.vvTried[i]? = some vTried) :
    ∀ m ∈ vTried, ∃ info, s.book.info m = some info := fun _ hm => h.known_of_tried hb hm

theorem nodup_of_tried (h : Settled s) (hb : s.vvTried[i]? = some vTried) : vTried.Nodup := by
  rw [nodup_iff_count_le_one]
  intro n
  have hle : vTried.count n ≤ copies n s.vvTried :=
    ((sublist_flatten_of_mem (mem_of_getElem? hb)).count_le n)
  have hone : copies n s.vvTried ≤ 1 := by
    cases hinfo : s.book.info n with
    | none => exact (h.absent n hinfo).1.le.trans (zero_le _)
    | some info =>
      have hplaced := h.placed n info hinfo
      cases htried : info.fInTried with
      | true => exact (hplaced.tried htried).1.le
      | false => exact (hplaced.new htried).1.le.trans (zero_le _)
  exact hle.trans hone

theorem set_perm {l l' : List ℕ} {p old : ℕ} (hperm : l'.Perm l) (hget : l'[p]? = some old)
    (n : ℕ) : (l'.set p n).Perm (n :: l.erase old) := by
  obtain ⟨hlt, hget⟩ := List.getElem?_eq_some_iff.mp hget
  refine (set_perm_cons_eraseIdx hlt n).trans (List.Perm.cons n ?_)
  have hold : (old :: l'.eraseIdx p).Perm (old :: l.erase old) := by
    rw [← hget]
    refine (getElem_cons_eraseIdx_perm hlt).trans (hperm.trans (perm_cons_erase ?_))
    exact hperm.mem_iff.mp (getElem_mem hlt)
  exact hold.cons_inv

theorem eq_of_erase_perm {l : List ℕ} {a b : ℕ} (hnodup : l.Nodup) (ha : a ∈ l)
    (h : (l.erase a).Perm (l.erase b)) : a = b := by
  by_contra hne
  exact hnodup.not_mem_erase (h.mem_iff.mpr ((mem_erase_of_ne hne).mpr ha))

/-- A full bucket gives up the entry at the position of the shuffled bucket. -/
theorem makeTried_evicts {nOrigin : ℕ} {vOrigin : List ℕ} (h : Settled s)
    (hinfo : s.book.info n = some info) (hnew : info.fInTried = false)
    (horigin : s.vvNew[nOrigin]? = some vOrigin) (hn : n ∈ vOrigin)
    (hb : s.vvTried[getTriedBucket E info]? = some vTried)
    (hfull : vTried.length = triedBucketSize) :
    ∃ t nPos rest, makeTried E o n nOrigin s = .ok () t ∧
      (((inspected o vTried).argmin (lastSuccess s)).map fun n =>
        drawnPos o vTried.length ((inspected o vTried).idxOf n)) = some nPos ∧
      (inspected o vTried ++ rest).Perm vTried ∧ nPos < (inspected o vTried ++ rest).length ∧
      t.vvTried[getTriedBucket E info]? = some ((inspected o vTried ++ rest).set nPos n) := by
  obtain ⟨s1, hbook1, hmake⟩ := makeTried_eq (E := E) (o := o) h hinfo horigin hn
  have hvvTried1 : s1.vvTried = s.vvTried := congrArg AddrBook.triedTable hbook1
  have hinfo1 : s1.book.info = update s.book.info n (some { info with nRefCount := 0 }) :=
    congrArg AddrBook.info hbook1
  have htime : lastSuccess s1 = lastSuccess s := by
    funext m
    rw [lastSuccess, hinfo1, lastSuccess]
    by_cases hm : m = n
    · rw [hm, update_self, hinfo]
      rfl
    · rw [update_of_ne hm]
  have hnot := not_mem_of_copies ((h.placed n info hinfo).new hnew).1 hb
  have hb1 : s1.vvTried[getTriedBucket E info]? = some vTried := by rw [hvvTried1, hb]
  have hknown1 : ∀ m ∈ vTried, ∃ info, s1.book.info m = some info := by
    intro m hm
    obtain ⟨infoM, hinfoM⟩ := known_of_bucket h hb m hm
    have hne : m ≠ n := by
      rintro rfl
      exact hnot hm
    exact ⟨infoM, by rw [hinfo1, update_of_ne hne, hinfoM]⟩
  have hpos : 0 < vTried.length := by rw [hfull]; decide
  obtain ⟨vTried', hselect, hperm, rest, rfl⟩ :=
    selectTried_eq (o := o) hb1 hknown1 (nodup_of_tried h hb)
  obtain ⟨nPos, vTried'', hselect', hperm', hlt⟩ := selectTried_ok (o := o) hb1 hknown1 hpos
  have hsame := hselect.symm.trans hselect'
  simp only [EStateM.Result.ok.injEq] at hsame
  rw [hsame.1] at hselect
  obtain ⟨t, old, infoOld, hrun, -, -, hbook⟩ := evictTried_of_select (E := E) nOrigin
    hb1 hknown1 (by rw [hinfo1]; exact update_self _ _ _) hnot hselect hperm
    (by rw [hperm.length_eq, ← hperm'.length_eq]; exact hlt)
  refine ⟨t, nPos, rest, ?_, htime ▸ hsame.1, hperm, ?_, ?_⟩
  · rw [hmake, if_neg, hrun]
    rw [getD_eq_getElem?_getD, hb, getD_some, hfull]
    exact lt_irrefl _
  · rw [hperm.length_eq, ← hperm'.length_eq]
    exact hlt
  · have htable : t.vvTried = s1.vvTried.set (getTriedBucket E info)
      ((inspected o vTried ++ rest).set nPos n) := congrArg AddrBook.triedTable hbook
    rw [htable]
    exact List.getElem?_set_self (List.getElem?_eq_some_iff.mp hb1).1

end AddrMan

/-! ### The choice -/

section Choice

open AddrMan

variable {E : AddrEnv} {o : Oracle} {s : CAddrMan} {vTried : List ℕ}

/-- **`SelectTried` gives the position of the stalest inspected entry, and `MakeTried` evicts it,
exactly if** the round of that entry drew its own position or the one of an entry that is as stale.
The bucket is permuted in any case. -/
theorem selectTried_stalest_iff {nKBucket : ℕ} (h : Settled s)
    (hb : s.vvTried[nKBucket]? = some vTried) :
    (∃ nPos vTried', selectTried o nKBucket s =
        .ok nPos { s with vvTried := s.vvTried.set nKBucket vTried' } ∧ vTried'.Perm vTried ∧
      ((∃ p, nPos = some p ∧ HoldsStalest (lastSuccess s) (inspected o vTried) vTried' p) ↔
        DrawsInspected (lastSuccess s) o vTried)) ∧
    ∀ (n : ℕ) (info : CAddrInfo) (nOrigin : ℕ) (vOrigin : List ℕ),
      s.book.info n = some info → info.fInTried = false → s.vvNew[nOrigin]? = some vOrigin →
      n ∈ vOrigin → getTriedBucket E info = nKBucket → vTried.length = triedBucketSize →
      ∃ t vTried', makeTried E o n nOrigin s = .ok () t ∧ t.vvTried[nKBucket]? = some vTried' ∧
        ((∃ old ∈ inspected o vTried, vTried'.Perm (n :: vTried.erase old) ∧
            ∀ m ∈ inspected o vTried, lastSuccess s old ≤ lastSuccess s m) ↔
          DrawsInspected (lastSuccess s) o vTried) := by
  have hnodup := nodup_of_tried h hb
  refine ⟨?_, ?_⟩
  · obtain ⟨vTried', hselect, hperm, rest, rfl⟩ :=
      selectTried_eq (o := o) hb (known_of_bucket h hb) hnodup
    exact ⟨_, _, hselect, hperm, holdsStalest_iff hnodup hperm⟩
  · rintro n info nOrigin vOrigin hinfo hnew horigin hn rfl hfull
    obtain ⟨t, nPos, rest, hrun, hpos, hperm, hlt, htable⟩ :=
      makeTried_evicts (o := o) h hinfo hnew horigin hn hb hfull
    refine ⟨t, _, hrun, htable, ?_⟩
    rw [← holdsStalest_iff hnodup hperm]
    have hget := getElem?_eq_getElem hlt
    constructor
    · rintro ⟨old, hold, hevicted, hleast⟩
      refine ⟨nPos, hpos, old, ?_, hold, hleast⟩
      have hsame := ((set_perm hperm hget n).symm.trans hevicted).cons_inv
      rw [hget, eq_of_erase_perm hnodup (hperm.mem_iff.mp (getElem_mem hlt)) hsame]
    · rintro ⟨p, hp, old, hold, hmem, hleast⟩
      rw [hpos] at hp
      cases hp
      exact ⟨old, hmem, set_perm hperm hold n, hleast⟩

/-- The addresses of the nodes. -/
def nodeOf (k : ℕ) : CAddress := ⟨⟨BitVec.ofNat 128 (k + 7), 22448⟩, 1, 900, 0⟩

/-- The address manager after some operations. -/
def AddrOp.execAll (E : AddrEnv) (o : Oracle) (ops : List AddrOp) (s : CAddrMan) : CAddrMan :=
  ops.foldl (fun s op =>
    match op.exec E o s with
    | .ok _ t => t
    | .error _ t => t) s

theorem AddrOp.execAll_run {ops : List AddrOp} (h : AddrRun E s) (hops : ∀ op ∈ ops, op.Positive) :
    AddrRun E (AddrOp.execAll E o ops s) := by
  induction ops generalizing s with
  | nil => exact h
  | cons op ops ih =>
    obtain ⟨t, hrun, -⟩ := exec_ok (E := E) (o := o) h.settled (hops op (.head _))
    have hnext := ih (.step op o h (hops op (.head _)) hrun) fun op' hop' => hops op' (.tail _ hop')
    rw [execAll, foldl_cons, hrun]
    exact hnext

/-- Nodes that were connected to, each later than the next, in a full bucket; one more is known. -/
def fullTried : CAddrMan :=
  AddrOp.execAll .constant ⟨fun _ => 0, fun _ => 1000⟩
    ((range 64).flatMap (fun k => [.add (nodeOf k) 7 0, .good (nodeOf k).toCService (1000 - k)]) ++
      [.add (nodeOf 64) 7 0]) .empty

theorem fullTried_run : AddrRun .constant fullTried := by
  refine AddrOp.execAll_run .start fun op hop => ?_
  rcases mem_append.1 hop with hop | hop
  · obtain ⟨k, hk, hop⟩ := mem_flatMap.1 hop
    rw [mem_range] at hk
    rcases mem_pair.1 hop with rfl | rfl
    · trivial
    · show (0 : ℤ) < 1000 - k
      omega
  · rw [mem_singleton.1 hop]
    trivial

/-- What there is in the books of the example. -/
theorem fullTried_books : fullTried.vvTried[0]? = some (range 64) ∧
    fullTried.vvNew[0]? = some [64] ∧
    (fullTried.book.info 64).map (·.fInTried) = some false ∧
    ∀ k ∈ range 9, lastSuccess fullTried k = 1000 - k := by
  decide +kernel

theorem lastSuccess_fullTried {k : ℕ} (hk : k < 9) : lastSuccess fullTried k = 1000 - k :=
  fullTried_books.2.2.2 k (mem_range.2 hk)

theorem argmin_fullTried {n : ℕ} {l : List ℕ} (hn : n ∈ l) (hle : ∀ m ∈ l, m ≤ n) (h9 : n < 9) :
    n ∈ l.argmin (lastSuccess fullTried) := by
  have hlast : ∀ m ∈ l, lastSuccess fullTried m = 1000 - m := fun m hm =>
    lastSuccess_fullTried ((hle m hm).trans_lt h9)
  refine mem_argmin_iff.2 ⟨hn, fun m hm => ?_, fun m hm h => ?_⟩
  · rw [hlast m hm, hlast n hn]
    have := hle m hm
    omega
  · rw [hlast m hm, hlast n hn] at h
    have := hle m hm
    rw [show m = n by omega]

/-- Every round draws its own position: the eighth node is the one that is replaced. -/
theorem selectTried_stalest_iff_fullTried :
    let o : Oracle := ⟨fun _ => 0, fun _ => 1000⟩
    (∃ nPos vTried', selectTried o 0 fullTried =
        .ok nPos { fullTried with vvTried := fullTried.vvTried.set 0 vTried' } ∧
      ∃ p, nPos = some p ∧
        HoldsStalest (lastSuccess fullTried) (inspected o (range 64)) vTried' p) ∧
    ∃ t vTried', makeTried .constant o 64 0 fullTried = .ok () t ∧ t.vvTried[0]? = some vTried' ∧
      ∃ old ∈ inspected o (range 64), vTried'.Perm (64 :: (range 64).erase old) ∧
        ∀ m ∈ inspected o (range 64), lastSuccess fullTried old ≤ lastSuccess fullTried m := by
  intro o
  obtain ⟨hbucket, hnew, hinfo, -⟩ := fullTried_books
  obtain ⟨info, hinfo, htried⟩ := Option.map_eq_some_iff.1 hinfo
  have hinspected : inspected o (range 64) = range 8 := by decide
  have hdraws : DrawsInspected (lastSuccess fullTried) o (range 64) := by
    rw [DrawsInspected, hinspected]
    exact ⟨7, argmin_fullTried (by decide) (by decide) (by decide), 7, rfl, rfl⟩
  obtain ⟨⟨nPos, vTried', hrun, -, hiff⟩, hmake⟩ :=
    selectTried_stalest_iff (E := .constant) (o := o) fullTried_run.settled hbucket
  obtain ⟨t, vTried2, hmade, ht, hevicts⟩ := hmake 64 info 0 [64] hinfo htried hnew
    (mem_singleton_self _) rfl rfl
  exact ⟨⟨nPos, vTried', hrun, hiff.mpr hdraws⟩, t, vTried2, hmade, ht, hevicts.mpr hdraws⟩

/-- Every round draws the position behind its own: the position of the last one holds the first
node. -/
theorem selectTried_holds_fresh :
    let o : Oracle := ⟨fun _ => 1, fun _ => 1000⟩
    ∃ vTried', selectTried o 0 fullTried =
        .ok (some 8) { fullTried with vvTried := fullTried.vvTried.set 0 vTried' } ∧
      inspected o (range 64) = [1, 2, 3, 4, 5, 6, 7, 8] ∧
      (∀ n ∈ inspected o (range 64), lastSuccess fullTried n < lastSuccess fullTried 0) ∧
      vTried'[8]? = some 0 ∧
      ¬ HoldsStalest (lastSuccess fullTried) (inspected o (range 64)) vTried' 8 := by
  intro o
  have hbucket := fullTried_books.1
  have hselect := selectTriedLoop_eq (o := o) (i := 0) triedEntriesInspectOnEvict hbucket
    (known_of_bucket fullTried_run.settled hbucket)
    (show Chosen fullTried 64 none from fun _ _ h => by cases h)
  have hinspected : inspected o (range 64) = [1, 2, 3, 4, 5, 6, 7, 8] := by decide
  have hfresh : ∀ n ∈ inspected o (range 64),
      lastSuccess fullTried n < lastSuccess fullTried 0 := by
    intro n hn
    rw [hinspected] at hn
    have hrange : 0 < n ∧ n < 9 := by
      simp only [mem_cons, not_mem_nil, or_false] at hn
      omega
    rw [lastSuccess_fullTried hrange.2, lastSuccess_fullTried (by decide)]
    omega
  have hshuffled : (shuffled o triedEntriesInspectOnEvict 0 (range 64))[8]? = some 0 := by decide
  have hleast : (inspected o (range 64)).argmin (lastSuccess fullTried) = some 8 := by
    rw [hinspected]
    exact argmin_fullTried (by decide) (by decide) (by decide)
  refine ⟨_, ?_, hinspected, hfresh, hshuffled, ?_⟩
  · have hpos : drawnPos o (range 64).length ((inspected o (range 64)).idxOf 8) = 8 := by
      rw [hinspected]
      decide
    rw [selectTried, bind_of_ok hselect, foldl_staler, argmin_rounds (by rw [hinspected]; decide),
      hleast, map_some, hpos]
    rfl
  · rintro ⟨n, hget, hmem, -⟩
    rw [hshuffled] at hget
    cases hget
    exact absurd (hfresh 0 hmem) (lt_irrefl _)

end Choice

end Espers
