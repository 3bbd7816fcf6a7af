import Mathlib.Data.List.Nodup
import Mathlib.Order.Lattice

/-!
# A map with a limit

`limitedmap` keeps a second index `rmap` from values to the entries of its map, from which it takes
the entry with the lowest value when there are too many.

* `Paired` : each index has one entry for each entry of the other.
* `keeps_iff` : a step does what it should exactly if it does not insert an entry for which there
  is room for one more only, or none.  At the last free place the map evicts an entry, or looks at
  the first entry of an index that is empty; when a lower limit has filled the map it evicts none.
* `limitedMap_run` : **the same over whole runs.**
-/

namespace Espers

open List

variable {κ ν : Type*}

/-- `limitedmap`.  The keys of `map` are different, and their order plays no part; an iterator is
the key it points to.  The entries of `rmap` are in its order. -/
structure LimitedMap (κ ν : Type*) where
  map : List (κ × ν)
  rmap : List (ν × κ)
  nMaxSize : ℕ
  deriving DecidableEq

/-- A call of a member function. -/
inductive MapCall (κ ν : Type*) where
  | insert (k : κ) (v : ν)
  | erase (k : κ)
  /-- `update(itIn, v)`, where `itIn` points to the key `k`. -/
  | update (k : κ) (v : ν)
  | maxSize (s : ℕ)

/-! ### The source -/

namespace LimitedMap

/-- `limitedmap(nMaxSizeIn)`. -/
def empty (nMaxSizeIn : ℕ) : LimitedMap κ ν := ⟨[], [], nMaxSizeIn⟩

section Source

variable [DecidableEq κ]

/-- `std::map::erase`. -/
def eraseKey (map : List (κ × ν)) (k : κ) : List (κ × ν) := map.filter (·.1 ≠ k)

variable [LinearOrder ν]

/-- `std::multimap::insert`, behind the entries with the same value. -/
def multimapInsert (x : ν × κ) : List (ν × κ) → List (ν × κ)
  | [] => [x]
  | y :: rmap => if x.1 < y.1 then x :: y :: rmap else y :: multimapInsert x rmap

/-- The loop of `max_size`, with the entries that it evicts; there is no result if `rmap.begin()` of
an empty index is used. -/
def shrink (s : ℕ) : List (κ × ν) → List (ν × κ) →
    Option (List (κ × ν) × List (ν × κ) × List (κ × ν))
  | map, [] => if map.length > s then none else some (map, [], [])
  | map, (v, k) :: rmap =>
    if map.length > s then
      (shrink s (eraseKey map k) rmap).map fun r => (r.1, r.2.1, (k, v) :: r.2.2)
    else some (map, (v, k) :: rmap, [])

/-- `insert`. -/
def insert (m : LimitedMap κ ν) (k : κ) (v : ν) : Option (LimitedMap κ ν × List (κ × ν)) :=
  if k ∈ m.map.map Prod.fst then some (m, [])
  else
    let map := (k, v) :: m.map
    if m.nMaxSize ≠ 0 ∧ map.length = m.nMaxSize then
      match m.rmap with
      | [] => none
      | (v', k') :: rmap =>
        some (⟨eraseKey map k', multimapInsert (v, k) rmap, m.nMaxSize⟩, [(k', v')])
    else some (⟨map, multimapInsert (v, k) m.rmap, m.nMaxSize⟩, [])

/-- A call, with the entries that are evicted; there is no result where an assertion fails or
`rmap.begin()` of an empty index is used. -/
def step (m : LimitedMap κ ν) : MapCall κ ν → Option (LimitedMap κ ν × List (κ × ν))
  | .insert k v => m.insert k v
  | .erase k =>
    match m.map.find? (·.1 = k) with
    | none => some (m, [])
    | some target =>
      if (target.2, k) ∈ m.rmap then
        some (⟨eraseKey m.map k, m.rmap.erase (target.2, k), m.nMaxSize⟩, [])
      else none
  | .update k v =>
    match m.map.find? (·.1 = k) with
    | none => some (m, [])
    | some target =>
      if (target.2, k) ∈ m.rmap then
        some (⟨m.map.map fun x => if x.1 = k then (k, v) else x,
          multimapInsert (v, k) (m.rmap.erase (target.2, k)), m.nMaxSize⟩, [])
      else none
  | .maxSize s =>
    if s ≠ 0 then (shrink s m.map m.rmap).map fun r => (⟨r.1, r.2.1, s⟩, r.2.2)
    else some ({ m with nMaxSize := s }, [])

end Source

/-! ### The two indexes -/

/-- `rmap` has one entry for each entry of `map`, and nothing else. -/
structure Paired (map : List (κ × ν)) (rmap : List (ν × κ)) : Prop where
  perm : rmap.Perm (map.map Prod.swap)
  nodup : (map.map Prod.fst).Nodup

theorem multimapInsert_perm [LinearOrder ν] (x : ν × κ) (rmap : List (ν × κ)) :
    (multimapInsert x rmap).Perm (x :: rmap) := by
  induction rmap with
  | nil => exact .rfl
  | cons y rmap ih =>
    rw [multimapInsert]
    split_ifs
    · exact .rfl
    · exact (ih.cons y).trans (.swap x y rmap)

theorem multimapInsert_pairwise [LinearOrder ν] {x : ν × κ} {rmap : List (ν × κ)}
    (h : rmap.Pairwise (·.1 ≤ ·.1)) : (multimapInsert x rmap).Pairwise (·.1 ≤ ·.1) := by
  induction rmap with
  | nil => simp [multimapInsert]
  | cons y rmap ih =>
    obtain ⟨hy, hrmap⟩ := pairwise_cons.1 h
    rw [multimapInsert]
    split_ifs with hlt
    · refine pairwise_cons.2 ⟨fun z hz => ?_, h⟩
      rcases mem_cons.1 hz with rfl | hz
      · exact hlt.le
      · exact hlt.le.trans (hy z hz)
    · refine pairwise_cons.2 ⟨fun z hz => ?_, ih hrmap⟩
      rcases mem_cons.1 ((multimapInsert_perm x rmap).mem_iff.1 hz) with rfl | hz
      · exact not_lt.1 hlt
      · exact hy z hz

namespace Paired

variable {map : List (κ × ν)} {rmap : List (ν × κ)} {k : κ} {v : ν}

theorem length_eq (h : Paired map rmap) : rmap.length = map.length := by
  rw [h.perm.length_eq, length_map]

theorem mem_iff (h : Paired map rmap) : (v, k) ∈ rmap ↔ (k, v) ∈ map := by
  rw [h.perm.mem_iff, mem_map]
  constructor
  · rintro ⟨⟨k', v'⟩, hmem, heq⟩
    cases heq
    exact hmem
  · exact fun hmem => ⟨(k, v), hmem, rfl⟩

theorem mem_of_find? [DecidableEq κ] {target : κ × ν} (h : Paired map rmap)
    (hfind : map.find? (·.1 = k) = some target) : (target.2, k) ∈ rmap := by
  obtain rfl : target.1 = k := by simpa using find?_some hfind
  exact h.mem_iff.2 (mem_of_find?_eq_some hfind)

theorem insert [LinearOrder ν] (h : Paired map rmap) (hk : k ∉ map.map Prod.fst) :
    Paired ((k, v) :: map) (multimapInsert (v, k) rmap) :=
  ⟨(multimapInsert_perm _ _).trans (h.perm.cons _), nodup_cons.2 ⟨hk, h.nodup⟩⟩

theorem remove [DecidableEq κ] {r : List (ν × κ)} (h : Paired map rmap)
    (hr : rmap.Perm ((v, k) :: r)) : Paired (eraseKey map k) r := by
  have hperm := hr.symm.trans h.perm
  have hkeys : (((v, k) :: r).map Prod.snd).Nodup := by
    rw [(hperm.map Prod.snd).nodup_iff, map_map]
    exact h.nodup
  have hk : ∀ x ∈ r, x.2 ≠ k := fun x hx heq =>
    (nodup_cons.1 hkeys).1 (mem_map.2 ⟨x, hx, heq⟩)
  have hfilter := hperm.filter (·.2 ≠ k)
  rw [filter_cons_of_neg (by simp), filter_eq_self.2 (by simpa using hk), filter_map] at hfilter
  exact ⟨hfilter, h.nodup.sublist (filter_sublist.map Prod.fst)⟩

/-- The entry of a key in `map` has a counterpart, and takes another value together with it. -/
theorem update [DecidableEq κ] [LinearOrder ν] {r : List (ν × κ)} (h : Paired map rmap)
    {v' : ν} (hr : rmap.Perm ((v', k) :: r)) :
    Paired (map.map fun x => if x.1 = k then (k, v) else x) (multimapInsert (v, k) r) := by
  have hkeys : (map.map fun x => if x.1 = k then (k, v) else x).map Prod.fst =
      map.map Prod.fst := by
    rw [map_map]
    refine map_congr_left fun x _ => ?_
    by_cases hx : x.1 = k <;> simp [hx]
  have hmem : (k, v') ∈ map := h.mem_iff.1 (hr.mem_iff.2 mem_cons_self)
  have hreplace : ((k, v) :: eraseKey map k).Perm
      (map.map fun x => if x.1 = k then (k, v) else x) := by
    obtain ⟨front, back, rfl⟩ := append_of_mem hmem
    have hother : ∀ x ∈ front ++ back, x.1 ≠ k := by
      have hnodup := h.nodup
      rw [map_append, map_cons, nodup_middle, ← map_append] at hnodup
      intro x hx heq
      exact (nodup_cons.1 hnodup).1 (mem_map.2 ⟨x, hx, heq⟩)
    have hsame (l : List (κ × ν)) (hl : ∀ x ∈ l, x.1 ≠ k) :
        (l.map fun x => if x.1 = k then (k, v) else x) = l := by
      refine (map_congr_left fun x hx => ?_).trans (map_id l)
      rw [if_neg (hl x hx), id]
    rw [map_append, map_cons, if_pos rfl, hsame front fun x hx => hother x (mem_append_left _ hx),
      hsame back fun x hx => hother x (mem_append_right _ hx), eraseKey, filter_append,
      filter_cons_of_neg (by simp), ← filter_append,
      filter_eq_self.2 (by simpa using hother)]
    exact perm_middle.symm
  refine ⟨(multimapInsert_perm _ _).trans ?_, hkeys ▸ h.nodup⟩
  exact ((h.remove hr).perm.cons (v, k)).trans (hreplace.map Prod.swap)

end Paired

/-! ### What a step does -/

section Steps

variable [DecidableEq κ] [LinearOrder ν] {m m' : LimitedMap κ ν} {c : MapCall κ ν}

/-- The indexes belong together, `rmap` is in order, and there are not too many entries. -/
structure Inv (m : LimitedMap κ ν) : Prop where
  paired : Paired m.map m.rmap
  sorted : m.rmap.Pairwise (·.1 ≤ ·.1)
  within : m.nMaxSize ≠ 0 → m.map.length ≤ m.nMaxSize

omit [LinearOrder ν] in
theorem shrink_spec (s : ℕ) {map : List (κ × ν)} {rmap : List (ν × κ)} (h : Paired map rmap) :
    ∃ map' rmap' out, shrink s map rmap = some (map', rmap', out) ∧
      rmap = out.map Prod.swap ++ rmap' ∧ Paired map' rmap' ∧ map'.length ≤ s := by
  induction rmap generalizing map with
  | nil =>
    have hlen := h.length_eq
    rw [length_nil] at hlen
    exact ⟨map, [], [], if_neg (by omega), rfl, h, by omega⟩
  | cons x rmap ih =>
    rw [shrink]
    split_ifs with hs
    · obtain ⟨map', rmap', out, hrun, rfl, hpaired, hlen⟩ := ih (h.remove .rfl)
      exact ⟨map', rmap', (x.2, x.1) :: out, by rw [hrun]; rfl, rfl, hpaired, hlen⟩
    · exact ⟨map, x :: rmap, [], rfl, rfl, h, by omega⟩

/-- What is evicted has minimal values among what is stored. -/
def EvictsMinimal (m m' : LimitedMap κ ν) (out : List (κ × ν)) : Prop :=
  (∀ x ∈ out, x ∈ m.map) ∧ out.Pairwise (·.2 ≤ ·.2) ∧ ∀ x ∈ out, ∀ y ∈ m'.map, x.2 ≤ y.2

/-- The call does what it should. -/
def Keeps (m : LimitedMap κ ν) (c : MapCall κ ν) : Prop :=
  ∃ m' out, m.step c = some (m', out) ∧ Paired m'.map m'.rmap ∧
    (m'.nMaxSize ≠ 0 → m'.map.length ≤ m'.nMaxSize) ∧ EvictsMinimal m m' out ∧
    ∀ k v, c = .insert k v → k ∉ m.map.map Prod.fst →
      (m.nMaxSize ≠ 0 → m.map.length + 1 ≤ m.nMaxSize) → out = []

/-- A new key is inserted only where at least one place stays free. -/
def RoomFor (m : LimitedMap κ ν) (c : MapCall κ ν) : Prop :=
  ∀ k v, c = .insert k v → k ∉ m.map.map Prod.fst → m.nMaxSize ≠ 0 → m.map.length + 1 < m.nMaxSize

omit [DecidableEq κ] in
theorem evictsMinimal_nil : EvictsMinimal m m' [] := by
  simp [EvictsMinimal]

/-- Where there is room, a call does what it should, and keeps the indexes together and in order. -/
theorem step_of_roomFor (h : Inv m) (hroom : RoomFor m c) :
    ∃ m' out, m.step c = some (m', out) ∧ Inv m' ∧ EvictsMinimal m m' out ∧
      ((∀ s, c ≠ .maxSize s) → out = []) := by
  cases c with
  | insert k v =>
    rw [step, LimitedMap.insert]
    by_cases hk : k ∈ m.map.map Prod.fst
    · exact ⟨m, [], if_pos hk, h, evictsMinimal_nil, fun _ => rfl⟩
    · have hfree := hroom k v rfl hk
      have hbelow : ¬ (m.nMaxSize ≠ 0 ∧ ((k, v) :: m.map).length = m.nMaxSize) := by
        rintro ⟨h0, hlen⟩
        have := hfree h0
        rw [length_cons] at hlen
        omega
      rw [if_neg hk]
      dsimp only
      rw [if_neg hbelow]
      exact ⟨_, [], rfl, ⟨h.paired.insert hk, multimapInsert_pairwise h.sorted,
        fun h0 => Nat.le_of_lt (hfree h0)⟩, evictsMinimal_nil, fun _ => rfl⟩
  | erase k =>
    rw [step]
    cases hfind : m.map.find? (·.1 = k) with
    | none => exact ⟨m, [], rfl, h, evictsMinimal_nil, fun _ => rfl⟩
    | some target =>
      have hmem := h.paired.mem_of_find? hfind
      have hpaired := h.paired.remove (perm_cons_erase hmem)
      refine ⟨_, [], if_pos hmem, ⟨hpaired, h.sorted.sublist erase_sublist, fun h0 => ?_⟩,
        evictsMinimal_nil, fun _ => rfl⟩
      exact (length_filter_le _ _).trans (h.within h0)
  | update k v =>
    rw [step]
    cases hfind : m.map.find? (·.1 = k) with
    | none => exact ⟨m, [], rfl, h, evictsMinimal_nil, fun _ => rfl⟩
    | some target =>
      have hmem := h.paired.mem_of_find? hfind
      refine ⟨_, [], if_pos hmem, ⟨h.paired.update (perm_cons_erase hmem),
        multimapInsert_pairwise (h.sorted.sublist erase_sublist), fun h0 => ?_⟩,
        evictsMinimal_nil, fun _ => rfl⟩
      exact (length_map _).trans_le (h.within h0)
  | maxSize s =>
    rw [step]
    by_cases hs : s = 0
    · exact ⟨_, [], if_neg (not_not.2 hs), ⟨h.paired, h.sorted, fun h0 => absurd hs h0⟩,
        evictsMinimal_nil, fun _ => rfl⟩
    · obtain ⟨map', rmap', out, hrun, heq, hpaired, hlen⟩ := shrink_spec s h.paired
      have hsorted := h.sorted
      rw [heq, pairwise_append, pairwise_map] at hsorted
      obtain ⟨hout, hrmap, hcross⟩ := hsorted
      refine ⟨⟨map', rmap', s⟩, out, by rw [if_pos hs, hrun]; rfl, ⟨hpaired, hrmap, fun _ => hlen⟩,
        ⟨fun x hx => ?_, hout, fun x hx y hy => ?_⟩, fun hno => absurd rfl (hno s)⟩
      · refine h.paired.mem_iff.1 ?_
        rw [heq]
        exact mem_append_left _ (mem_map_of_mem (f := Prod.swap) hx)
      · exact hcross _ (mem_map_of_mem (f := Prod.swap) hx) _ (hpaired.mem_iff.2 hy)

/-- A call does what it should exactly if it does not insert a new key into a map in which at most
one place is free. -/
theorem keeps_iff (h : Inv m) : Keeps m c ↔ RoomFor m c := by
  constructor
  · rintro ⟨m', out, hrun, -, hwithin, -, hnone⟩ k v rfl hk h0
    by_contra hroom
    have hle := h.within h0
    have hlen := h.paired.length_eq
    rw [step, LimitedMap.insert, if_neg hk] at hrun
    dsimp only at hrun
    by_cases hlast : m.map.length + 1 = m.nMaxSize
    · -- the last free place: an entry is evicted, and there may be none
      rw [if_pos ⟨h0, by rwa [length_cons]⟩] at hrun
      have hempty := hnone k v rfl hk fun _ => hlast.le
      cases hrmap : m.rmap with
      | nil =>
        rw [hrmap] at hrun
        cases hrun
      | cons x rmap =>
        rw [hrmap] at hrun
        cases hrun
        cases hempty
    · -- the map is full, and the test for equality does not see it
      rw [if_neg fun hand => hlast hand.2] at hrun
      cases hrun
      have hfull : m.map.length + 1 ≤ m.nMaxSize := hwithin h0
      omega
  · intro hroom
    obtain ⟨m', out, hrun, hinv, hminimal, hnone⟩ := step_of_roomFor h hroom
    refine ⟨m', out, hrun, hinv.paired, hinv.within, hminimal, ?_⟩
    rintro k v rfl - -
    exact hnone fun s => by simp

/-- Every step of a run has a property. -/
def Along (P : LimitedMap κ ν → MapCall κ ν → Prop) : LimitedMap κ ν → List (MapCall κ ν) → Prop
  | _, [] => True
  | m, c :: cs => P m c ∧ ∀ m' out, m.step c = some (m', out) → Along P m' cs

theorem along_iff (h : Inv m) (cs : List (MapCall κ ν)) :
    Along Keeps m cs ↔ Along RoomFor m cs := by
  induction cs generalizing m with
  | nil => exact .rfl
  | cons c cs ih =>
    rw [Along, Along, keeps_iff h]
    refine and_congr_right fun hroom => ?_
    obtain ⟨m', out, hrun, hinv, -⟩ := step_of_roomFor h hroom
    constructor
    · intro hrest m'' out' hrun'
      have hrest := hrest m'' out' hrun'
      rw [hrun] at hrun'
      cases hrun'
      exact (ih hinv).1 hrest
    · intro hrest m'' out' hrun'
      have hrest := hrest m'' out' hrun'
      rw [hrun] at hrun'
      cases hrun'
      exact (ih hinv).2 hrest

/-- **In a run every call does what it should exactly if no call inserts a new key into a map in
which at most one place is free.** -/
theorem limitedMap_run (n : ℕ) (cs : List (MapCall κ ν)) :
    Along Keeps (empty n : LimitedMap κ ν) cs ↔ Along RoomFor (empty n : LimitedMap κ ν) cs :=
  along_iff (m := empty n) ⟨⟨.nil, .nil⟩, .nil, fun _ => Nat.zero_le _⟩ cs

end Steps

/-- With one place the first insertion uses `rmap.begin()` of an empty index, with two places the
second one evicts an entry that there was a place for, and in a map that a lower limit has filled
there are too many entries after the next insertion. -/
theorem limitedMap_goesWrong : (empty 1 : LimitedMap ℕ ℕ).step (.insert 7 5) = none ∧
    ((empty 2 : LimitedMap ℕ ℕ).step (.insert 7 5)).bind (fun m => m.1.step (.insert 8 6)) =
      some (⟨[(8, 6)], [(6, 8)], 2⟩, [(7, 5)]) ∧
    (((empty 3 : LimitedMap ℕ ℕ).step (.insert 7 5)).bind (fun m => m.1.step (.maxSize 1))).bind
      (fun m => m.1.step (.insert 8 6)) =
      some (⟨[(8, 6), (7, 5)], [(5, 7), (6, 8)], 1⟩, []) := by
  decide

end LimitedMap

end Espers
