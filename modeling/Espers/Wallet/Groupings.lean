import Espers.Lib.Components
import Espers.Wallet.Coins
import Mathlib.Data.Finset.Option
import Mathlib.Data.Finset.Sort

/-!
# Address groupings

`GetAddressGroupings` collects groups of addresses: those that a transaction spends and returns
change to, if its first input is the wallet's own, and every own address by itself.  Groups that
overlap are then merged, through pointers to sets.

* `mergeGroups_spec` : the merge finds the components of the groups, and uses no deleted set.
* `getAddressGroupings_hits` : the result, if every output that is looked up exists.
* `getAddressGroupings_iff` : **the addresses are partitioned by what connects them exactly if** the
  look-ups hit, no group is empty, and no transaction connects more than the rule of the first input
  sees.
-/

namespace Espers

open Components Exec Function Relation
open Option (isSome_iff_exists some some_inj)
open List hiding set

/-! ### The source -/

/-- What the wallet knows of addresses; the order of a set of sets, and the pointers of new sets. -/
structure Addresses (α : Type*) where
  extractDestination : CScript → Option α
  /-- `::IsMine(*this, address)`. -/
  isMine : α → Bool
  /-- `mapAddressBook.count(address)`. -/
  mapAddressBook : α → Bool
  order : Finset (Finset α) → List (Finset α)
  mem_order : ∀ groupings g, g ∈ order groupings ↔ g ∈ groupings
  /-- `new set<CTxDestination>`, given the pointers in use. -/
  alloc : Finset ℕ → ℕ
  alloc_fresh : ∀ used, alloc used ∉ used

variable {α : Type*} [DecidableEq α]

/-- The empty transaction that `mapWallet[hash]` makes; nothing asks for its time. -/
def emptyWalletTx : CWalletTx := .ofTx ⟨1, 0, [], [], 0⟩

/-- `mapWallet[hash]`, which inserts what is not there. -/
def Wallet.entryAt (w : Wallet) (hash : Uint256) : Wallet × CWalletTx :=
  match w.mapWallet.lookup hash with
  | some wtx => (w, wtx)
  | none => (w.put hash emptyWalletTx, emptyWalletTx)

/-- `CWallet::IsMine` of an input. -/
def Wallet.isMineIn (K : Keystore) (w : Wallet) (txin : CTxIn) : Bool :=
  match w.mapWallet.lookup txin.prevout.hash with
  | none => false
  | some prev =>
    match prev.vout[txin.prevout.n]? with
    | none => false
    | some txout => K.isMine txout

/-- `CWallet::IsChange`. -/
def Addresses.isChange (A : Addresses α) (txout : CTxOut) : Bool :=
  match A.extractDestination txout.scriptPubKey with
  | none => false
  | some address => A.isMine address && !A.mapAddressBook address

/-- The input addresses are grouped with each other. -/
def groupInputs (A : Addresses α) : List CTxIn → Wallet × Finset α → Except Stop (Wallet × Finset α)
  | [], s => .ok s
  | txin :: vin, s =>
    let (w, prev) := s.1.entryAt txin.prevout.hash
    match prev.vout[txin.prevout.n]? with
    | none => .error (.crash "mapWallet[txin.prevout.hash].vout[txin.prevout.n]")
    | some txout =>
      match A.extractDestination txout.scriptPubKey with
      | none => groupInputs A vin (w, s.2)
      | some address => groupInputs A vin (w, insert address s.2)

/-- Change is grouped with the input addresses; the first input is looked up once more. -/
def groupChange (A : Addresses α) (prevout : COutPoint) :
    List CTxOut → Wallet × Finset α → Wallet × Finset α
  | [], s => s
  | txout :: vout, s =>
    if A.isChange txout then
      let w := (s.1.entryAt prevout.hash).1
      match A.extractDestination txout.scriptPubKey with
      | none => groupChange A prevout vout (w, s.2)
      | some address => groupChange A prevout vout (w, insert address s.2)
    else groupChange A prevout vout s

/-- Lone addresses are grouped by themselves. -/
def groupLone (A : Addresses α) (K : Keystore) : List CTxOut → Finset (Finset α) → Finset (Finset α)
  | [], groupings => groupings
  | txout :: vout, groupings =>
    if K.isMine txout then
      match A.extractDestination txout.scriptPubKey with
      | none => groupLone A K vout groupings
      | some address => groupLone A K vout (insert {address} groupings)
    else groupLone A K vout groupings

/-- The groups of a transaction of the wallet. -/
def groupTx (A : Addresses α) (K : Keystore) (s : Wallet × Finset (Finset α)) (pcoin : CWalletTx) :
    Except Stop (Wallet × Finset (Finset α)) :=
  match pcoin.vin with
  | [] => .ok (s.1, groupLone A K pcoin.vout s.2)
  | txin :: vin =>
    if s.1.isMineIn K txin then do
      let (w, grouping) ← groupInputs A (txin :: vin) (s.1, ∅)
      let (w, grouping) := groupChange A txin.prevout pcoin.vout (w, grouping)
      .ok (w, groupLone A K pcoin.vout (insert grouping s.2))
    else .ok (s.1, groupLone A K pcoin.vout s.2)

/-- The first loop of `GetAddressGroupings`. -/
def collectGroupings (A : Addresses α) (K : Keystore) (w : Wallet) :
    Except Stop (Wallet × Finset (Finset α)) :=
  (w.mapWallet.entries.map Sigma.snd).foldlM (groupTx A K) (w, ∅)

/-- The sets that pointers point to, the pointers of the groups, and the map from addresses. -/
structure MergeState (α : Type*) where
  heap : ℕ → Option (Finset α)
  uniqueGroupings : Finset ℕ
  setmap : α → Option ℕ

/-- A hit group is inserted into the merged one, and deleted. -/
def absorb (merged : ℕ) (s : MergeState α) (hit : ℕ) : Except Stop (MergeState α) :=
  match s.heap merged, s.heap hit with
  | some set, some group => .ok { s with
      heap := update (update s.heap merged (some (set ∪ group))) hit none
      uniqueGroupings := s.uniqueGroupings.erase hit }
  | _, _ => .error (.crash "merged->insert(hit->begin(), hit->end())")

/-- One group is merged. -/
def mergeGroup (A : Addresses α) (s : MergeState α) (grouping : Finset α) :
    Except Stop (MergeState α) := do
  let hits := grouping.biUnion fun address => (s.setmap address).toFinset
  let merged := A.alloc s.uniqueGroupings
  let s ← hits.sort.foldlM (absorb merged)
    { s with heap := update s.heap merged (some grouping) }
  match s.heap merged with
  | none => .error (.crash "*merged")
  | some set => .ok { s with
      uniqueGroupings := insert merged s.uniqueGroupings
      setmap := fun element => if element ∈ set then some merged else s.setmap element }

/-- The groups are taken out of the pointers, which are deleted. -/
def takeGroup (s : MergeState α × Finset (Finset α)) (uniqueGrouping : ℕ) :
    Except Stop (MergeState α × Finset (Finset α)) :=
  match s.1.heap uniqueGrouping with
  | none => .error (.crash "*uniqueGrouping")
  | some set => .ok ({ s.1 with heap := update s.1.heap uniqueGrouping none },
      insert set s.2)

/-- `CWallet::GetAddressGroupings`. -/
def getAddressGroupings (A : Addresses α) (K : Keystore) (w : Wallet) :
    Except Stop (Wallet × Finset (Finset α)) := do
  let (w, groupings) ← collectGroupings A K w
  let s ← (A.order groupings).foldlM (mergeGroup A) ⟨fun _ => none, ∅, fun _ => none⟩
  let r ← s.uniqueGroupings.sort.foldlM takeGroup (s, ∅)
  .ok (w, r.2)

/-! ### Merging -/

variable {A : Addresses α} {s : MergeState α} {merged : ℕ} {set : Finset α} {hits : List ℕ}

/-- The sets of the pointers in use. -/
def MergeState.parts (s : MergeState α) : Set (Set α) :=
  {p | ∃ ptr group, s.heap ptr = some group ∧ p = ↑group}

/-- The pointers in use are those of the groups, and the map sends an address to the pointer of the
group that has it. -/
structure MergeState.Inv (s : MergeState α) : Prop where
  live : ∀ ptr, (s.heap ptr).isSome ↔ ptr ∈ s.uniqueGroupings
  find : ∀ a ptr, s.setmap a = some ptr ↔ ∃ group, s.heap ptr = some group ∧ a ∈ group

/-- What is left after some groups were absorbed: they are deleted, the merged set has what they
had, and everything else is as before. -/
structure Absorbed (merged : ℕ) (set : Finset α) (hits : List ℕ) (s s' : MergeState α) : Prop where
  joined : ∃ set', s'.heap merged = some set' ∧ ∀ a, a ∈ set' ↔
    a ∈ set ∨ ∃ hit ∈ hits, ∃ group, s.heap hit = some group ∧ a ∈ group
  deleted : ∀ hit ∈ hits, s'.heap hit = none
  frame : ∀ ptr, ptr ≠ merged → ptr ∉ hits → s'.heap ptr = s.heap ptr
  uniqueGroupings : ∀ ptr, ptr ∈ s'.uniqueGroupings ↔ ptr ∈ s.uniqueGroupings ∧ ptr ∉ hits
  setmap : s'.setmap = s.setmap

theorem absorb_all (hmerged : s.heap merged = some set) (hnot : merged ∉ hits)
    (hnodup : hits.Nodup) (hlive : ∀ hit ∈ hits, (s.heap hit).isSome) :
    ∃ s', hits.foldlM (absorb merged) s = .ok s' ∧ Absorbed merged set hits s s' := by
  induction hits generalizing s set with
  | nil =>
    refine ⟨s, rfl, ⟨set, hmerged, fun a => ?_⟩, ?_, fun _ _ _ => rfl, fun ptr => ?_, rfl⟩
    · exact ⟨.inl, fun h => h.resolve_right fun ⟨_, hin, _⟩ => not_mem_nil hin⟩
    · exact fun _ hin => absurd hin not_mem_nil
    · exact ⟨fun h => ⟨h, not_mem_nil⟩, And.left⟩
  | cons hit hits ih =>
    obtain ⟨group, hgroup⟩ := isSome_iff_exists.1 (hlive hit mem_cons_self)
    obtain ⟨hne, hnot⟩ := ne_and_not_mem_of_not_mem_cons hnot
    obtain ⟨hfirst, hnodup⟩ := nodup_cons.1 hnodup
    have hheap : ∀ ptr, ptr ≠ merged → ptr ≠ hit → update (update s.heap merged
        (some (set ∪ group))) hit none ptr = s.heap ptr := fun ptr hm hh => by
      rw [update_of_ne hh, update_of_ne hm]
    have hrest : ∀ ptr ∈ hits, update (update s.heap merged
        (some (set ∪ group))) hit none ptr = s.heap ptr := fun ptr hin =>
      hheap ptr (fun h => hnot (h ▸ hin)) fun h => hfirst (h ▸ hin)
    obtain ⟨s', hrun, h'⟩ := @ih { s with
        heap := update (update s.heap merged (some (set ∪ group))) hit none
        uniqueGroupings := s.uniqueGroupings.erase hit } (set ∪ group)
      (by dsimp only; rw [update_of_ne hne, update_self]) hnot hnodup
      fun ptr hin => by
        dsimp only
        rw [hrest ptr hin]
        exact hlive ptr (mem_cons_of_mem _ hin)
    refine ⟨s', ?_, ?_, ?_, ?_, ?_, h'.setmap⟩
    · rw [foldlM_cons, absorb, hmerged, hgroup]
      exact hrun
    · obtain ⟨set', hset', hmem⟩ := h'.joined
      refine ⟨set', hset', fun a => (hmem a).trans ?_⟩
      rw [Finset.mem_union, or_assoc, exists_mem_cons_iff]
      refine or_congr_right (or_congr ?_ ?_)
      · rw [hgroup]
        exact ⟨fun h => ⟨group, rfl, h⟩, fun ⟨_, heq, h⟩ => some.inj heq ▸ h⟩
      · refine exists_congr fun ptr => and_congr_right fun hin => ?_
        dsimp only
        rw [hrest ptr hin]
    · intro ptr hin
      obtain rfl | hin := mem_cons.1 hin
      · rw [h'.frame ptr hne.symm hfirst]
        exact update_self _ _ _
      · exact h'.deleted ptr hin
    · intro ptr hm hin
      obtain ⟨hh, hin⟩ := ne_and_not_mem_of_not_mem_cons hin
      rw [h'.frame ptr hm hin]
      exact hheap ptr hm hh
    · intro ptr
      rw [h'.uniqueGroupings, Finset.mem_erase, mem_cons, not_or]
      tauto

omit [DecidableEq α] in
theorem MergeState.Inv.mem_hits (h : s.Inv) {grouping : Finset α} {ptr : ℕ} :
    ptr ∈ (grouping.biUnion fun address => (s.setmap address).toFinset) ↔
      ∃ group, s.heap ptr = some group ∧ ((group : Set α) ∩ grouping).Nonempty := by
  rw [Finset.mem_biUnion]
  constructor
  · rintro ⟨a, ha, hptr⟩
    obtain ⟨group, hgroup, hin⟩ := (h.find a ptr).1 (Option.mem_toFinset.1 hptr)
    exact ⟨group, hgroup, a, hin, ha⟩
  · rintro ⟨group, hgroup, a, hin, ha⟩
    exact ⟨a, ha, Option.mem_toFinset.2 ((h.find a ptr).2 ⟨group, hgroup, hin⟩)⟩

/-- What is left after one group was merged: a new pointer to the group with all groups that it
hits, and the pointers of the other groups. -/
structure Merged (grouping : Finset α) (merged : ℕ) (set : Finset α) (s s' : MergeState α) :
    Prop where
  fresh : s.heap merged = none
  new : s'.heap merged = some set
  mem : ∀ a, a ∈ set ↔ a ∈ grouping ∨ ∃ ptr group, s.heap ptr = some group ∧
    ((group : Set α) ∩ grouping).Nonempty ∧ a ∈ group
  kept : ∀ ptr, ptr ≠ merged → ∀ group, s'.heap ptr = some group ↔
    s.heap ptr = some group ∧ ¬ ((group : Set α) ∩ grouping).Nonempty
  live : ∀ ptr, (s'.heap ptr).isSome ↔ ptr ∈ s'.uniqueGroupings
  setmap : ∀ a, s'.setmap a = if a ∈ set then some merged else s.setmap a

/-- **Merging one group uses no deleted set.** -/
theorem mergeGroup_run (A : Addresses α) (h : s.Inv) (grouping : Finset α) :
    ∃ s' merged set, mergeGroup A s grouping = .ok s' ∧ Merged grouping merged set s s' := by
  have hmem := fun ptr => @MergeState.Inv.mem_hits _ _ h grouping ptr
  unfold mergeGroup
  dsimp only
  generalize (grouping.biUnion fun address => (s.setmap address).toFinset) = hits at hmem
  obtain ⟨merged, hmerged⟩ : ∃ ptr, A.alloc s.uniqueGroupings = ptr := ⟨_, rfl⟩
  have hfresh : s.heap merged = none := by
    have hnot := A.alloc_fresh s.uniqueGroupings
    rw [hmerged, ← h.live] at hnot
    exact Option.not_isSome_iff_eq_none.1 hnot
  have hother : ∀ ptr ∈ hits, ptr ≠ merged := by
    rintro ptr hin rfl
    obtain ⟨group, hgroup, -⟩ := (hmem ptr).1 hin
    cases hfresh.symm.trans hgroup
  have hmiss : ∀ ptr group, s.heap ptr = some group →
      (ptr ∈ hits ↔ ((group : Set α) ∩ grouping).Nonempty) := by
    intro ptr group hgroup
    rw [hmem]
    exact ⟨fun ⟨_, heq, hit⟩ => some.inj (hgroup.symm.trans heq) ▸ hit,
      fun hit => ⟨group, hgroup, hit⟩⟩
  rw [hmerged]
  obtain ⟨s1, hrun, h1⟩ := @absorb_all α _ { s with
      heap := update s.heap merged (some grouping) } merged grouping hits.sort
    (update_self _ _ _) (fun hin => hother merged ((Finset.mem_sort _).1 hin) rfl)
    (Finset.sort_nodup _ _) fun ptr hin => by
      have hin := (Finset.mem_sort _).1 hin
      obtain ⟨group, hgroup, -⟩ := (hmem ptr).1 hin
      dsimp only
      rw [update_of_ne (hother ptr hin), hgroup]
      rfl
  obtain ⟨set, hset, hjoined⟩ := h1.joined
  -- an old pointer still points to its group, unless that was hit
  have hkept : ∀ ptr, ptr ≠ merged → ∀ group,
      s1.heap ptr = some group ↔ s.heap ptr = some group ∧ ptr ∉ hits := by
    intro ptr hne group
    by_cases hin : ptr ∈ hits
    · rw [h1.deleted ptr ((Finset.mem_sort _).2 hin)]
      exact ⟨fun heap => (by cases heap), fun hand => absurd hin hand.2⟩
    · rw [h1.frame ptr hne fun h => hin ((Finset.mem_sort _).1 h)]
      dsimp only
      rw [update_of_ne hne]
      exact ⟨fun heap => ⟨heap, hin⟩, And.left⟩
  refine ⟨{ s1 with
      uniqueGroupings := insert merged s1.uniqueGroupings
      setmap := fun a => if a ∈ set then some merged else s1.setmap a }, merged, set,
    by rw [hrun]; dsimp only [bind, Except.bind]; rw [hset], hfresh, hset,
    fun a => ?_, fun ptr hne group => ?_, fun ptr => ?_, fun a => ?_⟩
  · rw [hjoined]
    refine or_congr_right (exists_congr fun ptr => ?_)
    rw [Finset.mem_sort]
    constructor
    · rintro ⟨hin, group, hgroup, ha⟩
      dsimp only at hgroup
      rw [update_of_ne (hother ptr hin)] at hgroup
      exact ⟨group, hgroup, (hmiss ptr group hgroup).1 hin, ha⟩
    · rintro ⟨group, hgroup, hit, ha⟩
      have hin := (hmiss ptr group hgroup).2 hit
      exact ⟨hin, group, (update_of_ne (hother ptr hin) _ _).trans hgroup, ha⟩
  · rw [hkept ptr hne]
    exact and_congr_right fun hgroup => not_congr (hmiss ptr group hgroup)
  · dsimp only
    rw [Finset.mem_insert, h1.uniqueGroupings, Finset.mem_sort, ← h.live,
      isSome_iff_exists, isSome_iff_exists]
    by_cases hne : ptr = merged
    · exact iff_of_true ⟨set, hne ▸ hset⟩ (.inl hne)
    · rw [or_iff_right hne, ← exists_and_right]
      exact exists_congr (hkept ptr hne)
  · exact congrArg (fun old => if a ∈ set then some merged else old) (congrFun h1.setmap a)

/-- The map leads to the merged group. -/
theorem Merged.inv {grouping : Finset α} {s' : MergeState α} (h' : Merged grouping merged set s s')
    (h : s.Inv) : s'.Inv := by
  refine ⟨h'.live, fun a ptr => ?_⟩
  rw [h'.setmap]
  by_cases ha : a ∈ set
  · rw [if_pos ha, some_inj]
    constructor
    · rintro rfl
      exact ⟨set, h'.new, ha⟩
    · rintro ⟨group, hgroup, hin⟩
      by_contra hne
      -- the group of another pointer would have been hit
      obtain ⟨hold, hmiss⟩ := (h'.kept ptr (Ne.symm hne) group).1 hgroup
      obtain hg | ⟨hit, group', hgroup', hit', hin'⟩ := (h'.mem a).1 ha
      · exact hmiss ⟨a, hin, hg⟩
      · have hsame : some hit = some ptr :=
          ((h.find a hit).2 ⟨group', hgroup', hin'⟩).symm.trans
            ((h.find a ptr).2 ⟨group, hold, hin⟩)
        rw [some.inj hsame, hold] at hgroup'
        exact hmiss (some.inj hgroup' ▸ hit')
  · rw [if_neg ha, h.find]
    refine exists_congr fun group => and_congr_left fun hin => ?_
    by_cases hne : ptr = merged
    · rw [hne, h'.fresh, h'.new]
      exact iff_of_false (fun heap => by cases heap) fun heap => ha (some.inj heap ▸ hin)
    · rw [h'.kept ptr hne]
      refine (and_iff_left_of_imp fun heap hit => ha ?_).symm
      exact (h'.mem a).2 (.inr ⟨ptr, group, heap, hit, hin⟩)

/-- The parts are merged. -/
theorem Merged.parts {grouping : Finset α} {s' : MergeState α}
    (h' : Merged grouping merged set s s') : s'.parts = Components.merge ↑grouping s.parts := by
  have hjoin : (set : Set α) = join ↑grouping s.parts := by
    ext a
    refine (h'.mem a).trans (or_congr_right ?_)
    constructor
    · rintro ⟨hit, group, hgroup, hit', hin⟩
      exact ⟨group, ⟨hit, group, hgroup, rfl⟩, hit', hin⟩
    · rintro ⟨-, ⟨hit, group, hgroup, rfl⟩, hit', hin⟩
      exact ⟨hit, group, hgroup, hit', hin⟩
  ext p
  constructor
  · rintro ⟨ptr, group, hgroup, rfl⟩
    by_cases hne : ptr = merged
    · rw [hne] at hgroup
      obtain rfl := some.inj (h'.new.symm.trans hgroup)
      exact .inl hjoin
    · obtain ⟨hold, hmiss⟩ := (h'.kept ptr hne group).1 hgroup
      exact .inr ⟨⟨ptr, group, hold, rfl⟩, hmiss⟩
  · rintro (rfl | ⟨⟨ptr, group, hold, rfl⟩, hmiss⟩)
    · exact ⟨merged, set, h'.new, hjoin.symm⟩
    · have hne : ptr ≠ merged := by
        rintro rfl
        cases h'.fresh.symm.trans hold
      exact ⟨ptr, group, (h'.kept ptr hne group).2 ⟨hold, hmiss⟩, rfl⟩

/-- **The groups are merged to their components**, without using a deleted set. -/
theorem mergeGroups_spec (A : Addresses α) (groupings : List (Finset α)) :
    ∃ s', groupings.foldlM (mergeGroup A) ⟨fun _ => none, ∅, fun _ => none⟩ = .ok s' ∧ s'.Inv ∧
      IsComponents {g | ∃ grouping ∈ groupings, g = ↑grouping} s'.parts ∧
      (∅ ∈ s'.parts ↔ ∅ ∈ groupings) := by
  induction groupings using List.reverseRecOn with
  | nil =>
    have hparts : MergeState.parts ⟨fun _ => none, ∅, fun _ => (none : Option ℕ)⟩
        = (∅ : Set (Set α)) := by
      refine Set.eq_empty_iff_forall_notMem.2 ?_
      rintro p ⟨ptr, group, hgroup, -⟩
      cases hgroup
    refine ⟨_, rfl, ⟨fun ptr => ?_, fun a ptr => ?_⟩, ?_, ?_⟩
    · exact iff_of_false (fun h => by cases h) (Finset.notMem_empty ptr)
    · exact iff_of_false (fun h => by cases h) fun ⟨_, h, _⟩ => by cases h
    · rw [hparts]
      convert IsComponents.empty
      exact Set.eq_empty_iff_forall_notMem.2 fun g ⟨_, h, _⟩ => absurd h not_mem_nil
    · rw [hparts]
      exact iff_of_false (Set.notMem_empty _) not_mem_nil
  | append_singleton groupings grouping ih =>
    obtain ⟨s, hrun, hinv, hparts, hempty⟩ := ih
    obtain ⟨s', merged, set, hmerge, h'⟩ := mergeGroup_run A hinv grouping
    refine ⟨s', ?_, h'.inv hinv, ?_, ?_⟩
    · rw [foldlM_append, hrun]
      dsimp only [bind, Except.bind]
      rw [foldlM_cons, hmerge]
      rfl
    · rw [h'.parts]
      convert hparts.merge ↑grouping
      ext g
      simp [or_comm]
    · rw [h'.parts, empty_mem_merge, hempty, mem_append, mem_singleton, or_comm,
        Finset.coe_eq_empty, eq_comm]

/-- Every set is taken out. -/
theorem takeGroups_spec {ptrs : List ℕ} (hnodup : ptrs.Nodup)
    (hlive : ∀ ptr ∈ ptrs, (s.heap ptr).isSome) (ret : Finset (Finset α)) :
    ∃ r, ptrs.foldlM takeGroup (s, ret) = .ok r ∧
      ∀ g, g ∈ r.2 ↔ g ∈ ret ∨ ∃ ptr ∈ ptrs, s.heap ptr = some g := by
  induction ptrs generalizing s ret with
  | nil => exact ⟨_, rfl, fun g => by simp⟩
  | cons ptr ptrs ih =>
    obtain ⟨group, hgroup⟩ := isSome_iff_exists.1 (hlive ptr mem_cons_self)
    obtain ⟨hfirst, hnodup⟩ := nodup_cons.1 hnodup
    have hrest : ∀ ptr' ∈ ptrs, update s.heap ptr none ptr' = s.heap ptr' :=
      fun ptr' hin => update_of_ne (ne_of_mem_of_not_mem hin hfirst) _ _
    obtain ⟨r, hrun, hr⟩ := @ih { s with heap := update s.heap ptr none } hnodup
      (fun ptr' hin => by
        dsimp only
        rw [hrest ptr' hin]
        exact hlive ptr' (mem_cons_of_mem _ hin)) (insert group ret)
    refine ⟨r, ?_, fun g => ?_⟩
    · rw [foldlM_cons, takeGroup]
      rw [hgroup]
      exact hrun
    · rw [hr, Finset.mem_insert, exists_mem_cons_iff, hgroup, some_inj, eq_comm,
        or_comm (a := group = g), or_assoc]
      refine or_congr_right (or_congr_right (exists_congr fun ptr' => ?_))
      refine and_congr_right fun hin => ?_
      dsimp only
      rw [hrest ptr' hin]

/-! ### What is collected -/

section Spec

variable (A) (K : Keystore) (w : Wallet) (wtx : CWalletTx)

/-- `mapWallet[o.hash].vout[o.n]`, if it exists. -/
def Wallet.outputAt (o : COutPoint) : Option CTxOut :=
  (w.mapWallet.lookup o.hash).bind fun prev => prev.vout[o.n]?

/-- An input of the transaction spends an output of the wallet that pays to the address. -/
def Addresses.Spends (a : α) : Prop :=
  ∃ txin ∈ wtx.vin, ∃ txout, w.outputAt txin.prevout = some txout ∧
    A.extractDestination txout.scriptPubKey = some a

/-- The transaction returns change to the address. -/
def Addresses.Returns (a : α) : Prop :=
  ∃ txout ∈ wtx.vout, A.isChange txout = true ∧ A.extractDestination txout.scriptPubKey = some a

/-- The transaction pays to the address, which is the wallet's own. -/
def Addresses.Owns (a : α) : Prop :=
  ∃ txout ∈ wtx.vout, K.isMine txout = true ∧ A.extractDestination txout.scriptPubKey = some a

/-- The rule of the source. -/
def FirstOwn : Prop := ∃ txin vin, wtx.vin = txin :: vin ∧ w.isMineIn K txin = true

def OwnInput : Prop := ∃ txin ∈ wtx.vin, w.isMineIn K txin = true

/-- The outputs that the inputs spend are there. -/
def Wallet.Hits : Prop := ∀ txin ∈ wtx.vin, (w.outputAt txin.prevout).isSome

/-- The groups of a transaction. -/
def Addresses.Groups (g : Set α) : Prop :=
  FirstOwn K w wtx ∧ g = {a | A.Spends w wtx a ∨ A.Returns wtx a} ∨ ∃ a, A.Owns K wtx a ∧ g = {a}

end Spec

variable {K : Keystore} {w : Wallet} {wtx : CWalletTx}

theorem Wallet.entryAt_of_lookup {hash : Uint256} (h : w.mapWallet.lookup hash = some wtx) :
    w.entryAt hash = (w, wtx) := by
  rw [entryAt, h]

theorem Wallet.lookup_of_outputAt {o : COutPoint} {txout : CTxOut} (h : w.outputAt o = some txout) :
    ∃ prev, w.mapWallet.lookup o.hash = some prev ∧ prev.vout[o.n]? = some txout :=
  Option.bind_eq_some_iff.1 h

theorem Wallet.lookup_of_isMineIn {txin : CTxIn} (h : w.isMineIn K txin = true) :
    ∃ prev, w.mapWallet.lookup txin.prevout.hash = some prev := by
  cases hlookup : w.mapWallet.lookup txin.prevout.hash with
  | some prev => exact ⟨prev, rfl⟩
  | none =>
    rw [isMineIn, hlookup] at h
    cases h

theorem groupInputs_cons {txin : CTxIn} {txout : CTxOut}
    (h : w.outputAt txin.prevout = some txout) (vin : List CTxIn) (g : Finset α) :
    groupInputs A (txin :: vin) (w, g) = groupInputs A vin
      (w, (A.extractDestination txout.scriptPubKey).elim g (insert · g)) := by
  obtain ⟨prev, hprev, hout⟩ := Wallet.lookup_of_outputAt h
  rw [groupInputs]
  dsimp only
  rw [Wallet.entryAt_of_lookup hprev]
  rw [hout]
  dsimp only
  cases A.extractDestination txout.scriptPubKey <;> rfl

theorem mem_elim_insert {address : Option α} {g : Finset α} {a : α} :
    a ∈ address.elim g (insert · g) ↔ a ∈ g ∨ address = some a := by
  cases address with
  | none => simp
  | some address => simp [or_comm, eq_comm]

theorem groupInputs_hits {vin : List CTxIn}
    (hhits : ∀ txin ∈ vin, (w.outputAt txin.prevout).isSome) (g : Finset α) :
    ∃ g', groupInputs A vin (w, g) = .ok (w, g') ∧ ∀ a, a ∈ g' ↔ a ∈ g ∨
      ∃ txin ∈ vin, ∃ txout, w.outputAt txin.prevout = some txout ∧
        A.extractDestination txout.scriptPubKey = some a := by
  induction vin generalizing g with
  | nil => exact ⟨g, rfl, fun a => by simp⟩
  | cons txin vin ih =>
    obtain ⟨htxin, hrest⟩ := forall_mem_cons.1 hhits
    obtain ⟨txout, htxout⟩ := isSome_iff_exists.1 htxin
    rw [groupInputs_cons htxout]
    obtain ⟨g', hrun, hg'⟩ := ih hrest _
    refine ⟨g', hrun, fun a => ?_⟩
    rw [hg', mem_elim_insert, exists_mem_cons_iff, or_assoc]
    simp only [htxout, some_inj, exists_eq_left']

/-- If one misses, the vector has no such output. -/
theorem groupInputs_misses {vin : List CTxIn}
    (hmiss : ¬ ∀ txin ∈ vin, (w.outputAt txin.prevout).isSome) (g : Finset α) :
    ∃ stop, groupInputs A vin (w, g) = .error stop := by
  induction vin generalizing g with
  | nil => exact absurd (fun _ hin => absurd hin not_mem_nil) hmiss
  | cons txin vin ih =>
    cases htxout : w.outputAt txin.prevout with
    | none =>
      have hout : (w.entryAt txin.prevout.hash).2.vout[txin.prevout.n]? = none := by
        rw [Wallet.outputAt] at htxout
        unfold Wallet.entryAt
        cases hlookup : w.mapWallet.lookup txin.prevout.hash with
        | none => rfl
        | some prev =>
          rw [hlookup] at htxout
          exact htxout
      rw [groupInputs]
      dsimp only
      rw [hout]
      exact ⟨_, rfl⟩
    | some txout =>
      rw [groupInputs_cons htxout]
      refine ih (fun hrest => hmiss (forall_mem_cons.2 ⟨?_, hrest⟩)) _
      rw [htxout]
      rfl

/-- The first input is there, as it is the wallet's own. -/
theorem groupChange_spec {prevout : COutPoint} {prev : CWalletTx}
    (h : w.mapWallet.lookup prevout.hash = some prev) (vout : List CTxOut) (g : Finset α) :
    ∃ g', groupChange A prevout vout (w, g) = (w, g') ∧ ∀ a, a ∈ g' ↔ a ∈ g ∨
      ∃ txout ∈ vout, A.isChange txout = true ∧
        A.extractDestination txout.scriptPubKey = some a := by
  induction vout generalizing g with
  | nil => exact ⟨g, rfl, fun a => by simp⟩
  | cons txout vout ih =>
    have hcons : groupChange A prevout (txout :: vout) (w, g) = groupChange A prevout vout
        (w, (if A.isChange txout then A.extractDestination txout.scriptPubKey else none).elim g
          (insert · g)) := by
      rw [groupChange]
      rw [Wallet.entryAt_of_lookup h]
      split_ifs
      · cases A.extractDestination txout.scriptPubKey <;> rfl
      · rfl
    rw [hcons]
    obtain ⟨g', hrun, hg'⟩ := ih _
    refine ⟨g', hrun, fun a => ?_⟩
    rw [hg', mem_elim_insert, exists_mem_cons_iff, or_assoc]
    simp only [ite_eq_iff, reduceCtorEq, and_false, or_false]

theorem mem_groupLone (vout : List CTxOut) (groupings : Finset (Finset α)) (g : Finset α) :
    g ∈ groupLone A K vout groupings ↔ g ∈ groupings ∨ ∃ a, (∃ txout ∈ vout,
      K.isMine txout = true ∧ A.extractDestination txout.scriptPubKey = some a) ∧ g = {a} := by
  induction vout generalizing groupings with
  | nil => simp [groupLone]
  | cons txout vout ih =>
    unfold groupLone
    simp only [exists_mem_cons_iff]
    by_cases hmine : K.isMine txout = true
    · rw [if_pos hmine]
      cases haddress : A.extractDestination txout.scriptPubKey with
      | none =>
        rw [ih]
        simp only [reduceCtorEq, and_false, false_or]
      | some address =>
        rw [ih, Finset.mem_insert, or_comm (a := g = {address}), or_assoc]
        simp only [hmine, true_and, some_inj, or_and_right, exists_or, exists_eq_left']
    · rw [if_neg hmine, ih]
      simp only [hmine, false_and, false_or, Bool.false_eq_true]

/-- The sets of a finite set of groups. -/
def sets (groupings : Finset (Finset α)) : Set (Set α) := {p | ∃ group ∈ groupings, p = ↑group}

omit [DecidableEq α] in
theorem coe_mem_sets {groupings : Finset (Finset α)} {g : Finset α} :
    ↑g ∈ sets groupings ↔ g ∈ groupings := by
  constructor
  · rintro ⟨group, hin, heq⟩
    exact Finset.coe_injective heq ▸ hin
  · exact fun hin => ⟨g, hin, rfl⟩

theorem mem_sets_insert {groupings : Finset (Finset α)} {g : Finset α} {p : Set α} :
    p ∈ sets (insert g groupings) ↔ p = ↑g ∨ p ∈ sets groupings := by
  simp only [sets, Set.mem_ofPred_eq, Finset.mem_insert, or_and_right, exists_or, exists_eq_left]

theorem sets_groupLone (groupings : Finset (Finset α)) (p : Set α) :
    p ∈ sets (groupLone A K wtx.vout groupings) ↔
      p ∈ sets groupings ∨ ∃ a, A.Owns K wtx a ∧ p = {a} := by
  constructor
  · rintro ⟨g, hg, rfl⟩
    refine ((mem_groupLone _ _ _).1 hg).imp coe_mem_sets.2 ?_
    rintro ⟨a, howns, rfl⟩
    exact ⟨a, howns, Finset.coe_singleton a⟩
  · rintro (⟨g, hg, rfl⟩ | ⟨a, howns, rfl⟩)
    · exact coe_mem_sets.2 ((mem_groupLone _ _ _).2 (.inl hg))
    · rw [← Finset.coe_singleton]
      exact coe_mem_sets.2 ((mem_groupLone _ _ _).2 (.inr ⟨a, howns, rfl⟩))

/-- The groups of one transaction. -/
theorem groupTx_hits (hhits : FirstOwn K w wtx → w.Hits wtx) (groupings : Finset (Finset α)) :
    ∃ groupings', groupTx A K (w, groupings) wtx = .ok (w, groupings') ∧
      ∀ p, p ∈ sets groupings' ↔ p ∈ sets groupings ∨ A.Groups K w wtx p := by
  by_cases hfirst : FirstOwn K w wtx
  · obtain ⟨txin, vin, hvin, hmine⟩ := id hfirst
    have hhits := hhits hfirst
    rw [Wallet.Hits, hvin] at hhits
    obtain ⟨prev, hprev⟩ := Wallet.lookup_of_isMineIn hmine
    obtain ⟨g, hinputs, hg⟩ := @groupInputs_hits _ _ A _ _ hhits ∅
    obtain ⟨g', hchange, hg'⟩ := groupChange_spec hprev wtx.vout g
    have hcoe : (g' : Set α) = {a | A.Spends w wtx a ∨ A.Returns wtx a} := by
      ext a
      rw [Finset.mem_coe, hg', hg, ← hvin]
      exact or_congr_left (or_iff_right (Finset.notMem_empty a))
    refine ⟨groupLone A K wtx.vout (insert g' groupings), ?_, fun p => ?_⟩
    · unfold groupTx
      rw [hvin]
      dsimp only
      rw [if_pos hmine, hinputs]
      dsimp only [bind, Except.bind]
      rw [hchange]
    · rw [sets_groupLone, mem_sets_insert, hcoe, Addresses.Groups, ← or_assoc, or_comm (a := p = _),
        and_iff_right hfirst]
  · refine ⟨groupLone A K wtx.vout groupings, ?_, fun p => ?_⟩
    · unfold groupTx
      cases hvin : wtx.vin with
      | nil => rfl
      | cons txin vin => exact if_neg fun hmine => hfirst ⟨txin, vin, hvin, hmine⟩
    · rw [sets_groupLone, Addresses.Groups]
      exact or_congr_right (or_iff_right fun h => hfirst h.1).symm

theorem groupTx_misses (hfirst : FirstOwn K w wtx) (hmiss : ¬ w.Hits wtx)
    (groupings : Finset (Finset α)) : ∃ stop, groupTx A K (w, groupings) wtx = .error stop := by
  obtain ⟨txin, vin, hvin, hmine⟩ := hfirst
  rw [Wallet.Hits, hvin] at hmiss
  obtain ⟨stop, hstop⟩ := @groupInputs_misses _ _ A _ _ hmiss ∅
  refine ⟨stop, ?_⟩
  unfold groupTx
  rw [hvin]
  dsimp only
  rw [if_pos hmine, hstop]
  rfl

/-- The transactions of the wallet. -/
def Wallet.transactions (w : Wallet) : List CWalletTx := w.mapWallet.entries.map Sigma.snd

theorem foldlM_groupTx {txs : List CWalletTx}
    (hhits : ∀ wtx ∈ txs, FirstOwn K w wtx → w.Hits wtx) (groupings : Finset (Finset α)) :
    ∃ groupings', txs.foldlM (groupTx A K) (w, groupings) = .ok (w, groupings') ∧
      ∀ p, p ∈ sets groupings' ↔ p ∈ sets groupings ∨ ∃ wtx ∈ txs, A.Groups K w wtx p := by
  induction txs generalizing groupings with
  | nil => exact ⟨groupings, rfl, fun p => by simp⟩
  | cons wtx txs ih =>
    obtain ⟨hwtx, hrest⟩ := forall_mem_cons.1 hhits
    obtain ⟨groupings1, hrun, h1⟩ := groupTx_hits (A := A) hwtx groupings
    obtain ⟨groupings', hrun', h'⟩ := ih hrest groupings1
    refine ⟨groupings', ?_, fun p => ?_⟩
    · rw [foldlM_cons, hrun]
      exact hrun'
    · rw [h', h1, exists_mem_cons_iff, or_assoc]

theorem foldlM_groupTx_misses {txs : List CWalletTx}
    (hmiss : ¬ ∀ wtx ∈ txs, FirstOwn K w wtx → w.Hits wtx) (groupings : Finset (Finset α)) :
    ∃ stop, txs.foldlM (groupTx A K) (w, groupings) = .error stop := by
  induction txs generalizing groupings with
  | nil => exact absurd (fun _ hin => absurd hin not_mem_nil) hmiss
  | cons wtx txs ih =>
    rw [foldlM_cons]
    by_cases hwtx : FirstOwn K w wtx → w.Hits wtx
    · obtain ⟨groupings1, hrun, -⟩ := groupTx_hits (A := A) hwtx groupings
      rw [hrun]
      exact ih (fun hrest => hmiss (forall_mem_cons.2 ⟨hwtx, hrest⟩)) groupings1
    · obtain ⟨hfirst, hno⟩ := Classical.not_imp.1 hwtx
      obtain ⟨stop, hstop⟩ := groupTx_misses (A := A) hfirst hno groupings
      exact ⟨stop, by rw [hstop]; rfl⟩

/-- **The result has the components of the groups**, and the wallet is as before. -/
theorem getAddressGroupings_hits (hhits : ∀ wtx ∈ w.transactions, FirstOwn K w wtx → w.Hits wtx) :
    ∃ ret, getAddressGroupings A K w = .ok (w, ret) ∧
      IsComponents {p | ∃ wtx ∈ w.transactions, A.Groups K w wtx p} (sets ret) ∧
      (∅ ∈ ret ↔ ∃ wtx ∈ w.transactions, A.Groups K w wtx ∅) := by
  obtain ⟨groupings, hcollect, hgroupings⟩ := foldlM_groupTx (A := A) hhits ∅
  have hgroups : {g | ∃ grouping ∈ A.order groupings, g = ↑grouping}
      = {p | ∃ wtx ∈ w.transactions, A.Groups K w wtx p} := by
    ext p
    simp only [A.mem_order]
    refine (hgroupings p).trans (or_iff_right ?_)
    rintro ⟨g, hin, -⟩
    exact Finset.notMem_empty g hin
  obtain ⟨s, hmerge, hinv, hparts, hempty⟩ := mergeGroups_spec A (A.order groupings)
  rw [hgroups] at hparts
  obtain ⟨r, htake, hr⟩ := takeGroups_spec (Finset.sort_nodup s.uniqueGroupings (· ≤ ·))
    (fun ptr hin => (hinv.live ptr).2 ((Finset.mem_sort _).1 hin)) ∅
  have hret : sets r.2 = s.parts := by
    ext p
    constructor
    · rintro ⟨g, hin, rfl⟩
      obtain ⟨ptr, -, hgroup⟩ := ((hr g).1 hin).resolve_left (Finset.notMem_empty g)
      exact ⟨ptr, g, hgroup, rfl⟩
    · rintro ⟨ptr, g, hgroup, rfl⟩
      refine coe_mem_sets.2 ((hr g).2 (.inr ⟨ptr, ?_, hgroup⟩))
      exact (Finset.mem_sort _).2 ((hinv.live ptr).1 (hgroup ▸ rfl))
  refine ⟨r.2, ?_, hret ▸ hparts, ?_⟩
  · unfold getAddressGroupings collectGroupings
    rw [← Wallet.transactions, hcollect]
    dsimp only [bind, Except.bind]
    rw [hmerge]
    dsimp only
    rw [htake]
  · have hnone : (∅ : Set α) ∉ sets ∅ := fun ⟨g, hin, _⟩ => Finset.notMem_empty g hin
    rw [← coe_mem_sets, Finset.coe_empty, hret, hempty, A.mem_order, ← coe_mem_sets,
      Finset.coe_empty, hgroupings, or_iff_right hnone]

theorem getAddressGroupings_misses
    (hmiss : ¬ ∀ wtx ∈ w.transactions, FirstOwn K w wtx → w.Hits wtx) :
    ∃ stop, getAddressGroupings A K w = .error stop := by
  obtain ⟨stop, hstop⟩ := foldlM_groupTx_misses (A := A) hmiss ∅
  refine ⟨stop, ?_⟩
  unfold getAddressGroupings collectGroupings
  rw [← Wallet.transactions, hstop]
  rfl

/-! ### The contract -/

section Contract

variable (A) (K) (w)

/-- The transaction spends both addresses as inputs, or returns change of one to the other. -/
def Addresses.LinkedBy (wtx : CWalletTx) (a b : α) : Prop :=
  A.Spends w wtx a ∧ (A.Spends w wtx b ∨ A.Returns wtx b) ∨ A.Returns wtx a ∧ A.Spends w wtx b

/-- A transaction of the wallet that spends one of its coins links the addresses. -/
def Addresses.Linked (a b : α) : Prop :=
  ∃ wtx ∈ w.transactions, OwnInput K w wtx ∧ A.LinkedBy w wtx a b

/-- The address is the wallet's own, or one that such a transaction spends or returns change to. -/
def Addresses.Involved (a : α) : Prop := ∃ wtx ∈ w.transactions,
  A.Owns K wtx a ∨ OwnInput K w wtx ∧ (A.Spends w wtx a ∨ A.Returns wtx a)

/-- Every look-up hits, the wallet is as before, and the groups are the classes of the addresses
that chains of transactions link. -/
def GroupsAddresses (r : Except Stop (Wallet × Finset (Finset α))) : Prop :=
  ∃ ret, r = .ok (w, ret) ∧ ∅ ∉ ret ∧ (∀ g ∈ ret, ∀ g' ∈ ret, ∀ a, a ∈ g → a ∈ g' → g = g') ∧
    ∀ a b, (∃ g ∈ ret, a ∈ g ∧ b ∈ g) ↔ A.Involved K w a ∧ (a = b ∨ TransGen (A.Linked K w) a b)

/-- What the source groups. -/
def Addresses.Seen (a b : α) : Prop := ∃ wtx ∈ w.transactions,
  FirstOwn K w wtx ∧ (A.Spends w wtx a ∨ A.Returns wtx a) ∧ (A.Spends w wtx b ∨ A.Returns wtx b) ∨
    A.Owns K wtx a ∧ a = b

/-- The rule of the first input suffices. -/
structure FirstInputSuffices : Prop where
  /-- All inputs next to an own first one spend outputs of the wallet. -/
  hits : ∀ wtx ∈ w.transactions, FirstOwn K w wtx → w.Hits wtx
  /-- Some input has an address, or there is change. -/
  nonempty : ∀ wtx ∈ w.transactions, FirstOwn K w wtx → ∃ a, A.Spends w wtx a ∨ A.Returns wtx a
  /-- If no input has one, all change goes to addresses that are linked. -/
  change : ∀ wtx ∈ w.transactions, FirstOwn K w wtx → (∀ c, ¬ A.Spends w wtx c) →
    ∀ a b, A.Returns wtx a → A.Returns wtx b → a = b ∨ TransGen (A.Linked K w) a b
  /-- An own input behind a foreign one adds nothing. -/
  others : ∀ wtx ∈ w.transactions, OwnInput K w wtx → ¬ FirstOwn K w wtx →
    ∀ a b, a = b ∧ (A.Spends w wtx a ∨ A.Returns wtx a) ∨ A.LinkedBy w wtx a b →
      TransGen (A.Seen K w) a b

end Contract

theorem FirstOwn.ownInput (h : FirstOwn K w wtx) : OwnInput K w wtx := by
  obtain ⟨txin, vin, hvin, hmine⟩ := h
  exact ⟨txin, hvin ▸ mem_cons_self, hmine⟩

omit [DecidableEq α] in
theorem together_groups {a b : α} :
    Together {p | ∃ wtx ∈ w.transactions, A.Groups K w wtx p} a b ↔ A.Seen K w a b := by
  constructor
  · rintro ⟨_, ⟨wtx, hin, ⟨hfirst, rfl⟩ | ⟨c, howns, rfl⟩⟩, ha, hb⟩
    · exact ⟨wtx, hin, .inl ⟨hfirst, ha, hb⟩⟩
    · obtain rfl := Set.mem_singleton_iff.1 ha
      exact ⟨wtx, hin, .inr ⟨howns, (Set.mem_singleton_iff.1 hb).symm⟩⟩
  · rintro ⟨wtx, hin, ⟨hfirst, ha, hb⟩ | ⟨howns, rfl⟩⟩
    · exact ⟨_, ⟨wtx, hin, .inl ⟨hfirst, rfl⟩⟩, ha, hb⟩
    · exact ⟨{a}, ⟨wtx, hin, .inr ⟨a, howns, rfl⟩⟩, rfl, rfl⟩

omit [DecidableEq α] in
theorem groups_empty : A.Groups K w wtx ∅ ↔
    FirstOwn K w wtx ∧ ¬ ∃ a, A.Spends w wtx a ∨ A.Returns wtx a := by
  constructor
  · rintro (⟨hfirst, hg⟩ | ⟨a, -, hg⟩)
    · refine ⟨hfirst, fun ⟨a, ha⟩ => ?_⟩
      have hmem : a ∈ (∅ : Set α) := hg ▸ ha
      exact Set.notMem_empty a hmem
    · exact absurd hg.symm (Set.singleton_ne_empty a)
  · rintro ⟨hfirst, hno⟩
    exact .inl ⟨hfirst, (Set.eq_empty_iff_forall_notMem.2 fun a ha => hno ⟨a, ha⟩).symm⟩

omit [DecidableEq α] in
theorem FirstInputSuffices.linked (h : FirstInputSuffices A K w) {a b : α} (hab : A.Seen K w a b) :
    A.Involved K w a ∧ (a = b ∨ TransGen (A.Linked K w) a b) := by
  obtain ⟨wtx, hin, ⟨hfirst, ha, hb⟩ | ⟨howns, rfl⟩⟩ := hab
  · refine ⟨⟨wtx, hin, .inr ⟨hfirst.ownInput, ha⟩⟩, ?_⟩
    have hlink : ∀ {a b}, A.LinkedBy w wtx a b → A.Linked K w a b :=
      fun hab => ⟨wtx, hin, hfirst.ownInput, hab⟩
    obtain ha | ha := ha
    · exact .inr (.single (hlink (.inl ⟨ha, hb⟩)))
    · obtain hb | hb := hb
      · exact .inr (.single (hlink (.inr ⟨ha, hb⟩)))
      · by_cases hspends : ∃ c, A.Spends w wtx c
        · obtain ⟨c, hc⟩ := hspends
          exact .inr (.head (hlink (.inr ⟨ha, hc⟩)) (.single (hlink (.inl ⟨hc, .inr hb⟩))))
        · exact h.change wtx hin hfirst (not_exists.1 hspends) a b ha hb
  · exact ⟨⟨wtx, hin, .inl howns⟩, .inl rfl⟩

omit [DecidableEq α] in
theorem FirstInputSuffices.seen (h : FirstInputSuffices A K w) {wtx : CWalletTx}
    (hin : wtx ∈ w.transactions) (hown : OwnInput K w wtx) {a b : α}
    (hab : a = b ∧ (A.Spends w wtx a ∨ A.Returns wtx a) ∨ A.LinkedBy w wtx a b) :
    TransGen (A.Seen K w) a b := by
  by_cases hfirst : FirstOwn K w wtx
  · refine .single ⟨wtx, hin, .inl ⟨hfirst, ?_⟩⟩
    obtain ⟨rfl, ha⟩ | ⟨ha, hb⟩ | ⟨ha, hb⟩ := hab
    · exact ⟨ha, ha⟩
    · exact ⟨.inl ha, hb⟩
    · exact ⟨.inr ha, .inl hb⟩
  · exact h.others wtx hin hown hfirst a b hab

omit [DecidableEq α] in
theorem FirstInputSuffices.connected_iff (h : FirstInputSuffices A K w) (a b : α) :
    TransGen (A.Seen K w) a b ↔ A.Involved K w a ∧ (a = b ∨ TransGen (A.Linked K w) a b) := by
  constructor
  · intro hab
    induction hab with
    | single hab => exact h.linked hab
    | tail _ hbc ih =>
      refine ⟨ih.1, ?_⟩
      obtain ⟨-, rfl | hbc⟩ := h.linked hbc
      · exact ih.2
      · obtain rfl | hab := ih.2
        · exact .inr hbc
        · exact .inr (hab.trans hbc)
  · rintro ⟨⟨wtx, hin, ha⟩, rfl | hab⟩
    · obtain howns | ⟨hown, ha⟩ := ha
      · exact .single ⟨wtx, hin, .inr ⟨howns, rfl⟩⟩
      · exact h.seen hin hown (.inl ⟨rfl, ha⟩)
    · clear ha
      induction hab with
      | single hab =>
        obtain ⟨wtx, hin, hown, hab⟩ := hab
        exact h.seen hin hown (.inr hab)
      | tail _ hbc ih =>
        obtain ⟨wtx, hin, hown, hbc⟩ := hbc
        exact ih.trans (h.seen hin hown (.inr hbc))

/-- **The addresses are grouped by the transactions that link them exactly if** the rule of the
first input suffices. -/
theorem getAddressGroupings_iff (A : Addresses α) (K : Keystore) (w : Wallet) :
    GroupsAddresses A K w (getAddressGroupings A K w) ↔ FirstInputSuffices A K w := by
  by_cases hhits : ∀ wtx ∈ w.transactions, FirstOwn K w wtx → w.Hits wtx
  · obtain ⟨ret, hret, hparts, hempty⟩ := getAddressGroupings_hits (A := A) hhits
    have htogether : ∀ a b, (∃ g ∈ ret, a ∈ g ∧ b ∈ g) ↔ TransGen (A.Seen K w) a b := by
      intro a b
      have hseen : Together {p | ∃ wtx ∈ w.transactions, A.Groups K w wtx p} = A.Seen K w := by
        ext a b
        exact together_groups
      rw [← hseen, ← hparts.together]
      constructor
      · rintro ⟨g, hin, hab⟩
        exact ⟨g, coe_mem_sets.2 hin, hab⟩
      · rintro ⟨_, ⟨g, hin, rfl⟩, hab⟩
        exact ⟨g, hin, hab⟩
    constructor
    · rintro ⟨ret', hret', hnonempty, -, hlinked⟩
      obtain rfl : ret = ret' := congrArg Prod.snd (Except.ok.inj (hret.symm.trans hret'))
      simp only [htogether] at hlinked
      refine ⟨hhits, fun wtx hin hfirst => ?_, fun wtx hin hfirst _ a b ha hb => ?_,
        fun wtx hin hown _ a b hab => (hlinked a b).2 ?_⟩
      · by_contra hno
        exact hnonempty (hempty.2 ⟨wtx, hin, groups_empty.2 ⟨hfirst, hno⟩⟩)
      · exact ((hlinked a b).1 (.single ⟨wtx, hin, .inl ⟨hfirst, .inr ha, .inr hb⟩⟩)).2
      · obtain ⟨rfl, ha⟩ | hab := hab
        · exact ⟨⟨wtx, hin, .inr ⟨hown, ha⟩⟩, .inl rfl⟩
        · refine ⟨⟨wtx, hin, .inr ⟨hown, hab.imp And.left And.left⟩⟩, .inr (.single ?_)⟩
          exact ⟨wtx, hin, hown, hab⟩
    · intro h
      refine ⟨ret, hret, fun hin => ?_, fun g hg g' hg' a ha ha' => ?_, fun a b => ?_⟩
      · obtain ⟨wtx, hin, hgroups⟩ := hempty.1 hin
        obtain ⟨hfirst, hno⟩ := groups_empty.1 hgroups
        exact hno (h.nonempty wtx hin hfirst)
      · exact Finset.coe_injective
          (hparts.disjoint g (coe_mem_sets.2 hg) g' (coe_mem_sets.2 hg') a ha ha')
      · rw [htogether, h.connected_iff]
  · obtain ⟨stop, hstop⟩ := getAddressGroupings_misses (A := A) hhits
    refine iff_of_false ?_ fun h => hhits h.hits
    rintro ⟨ret, hret, -⟩
    cases hstop.symm.trans hret

namespace Simnet

/-- Every script is an address. -/
noncomputable def scriptAddresses : Addresses CScript where
  extractDestination := some
  isMine address := address == [1]
  mapAddressBook _ := false
  order := Finset.toList
  mem_order _ _ := Finset.mem_toList
  alloc used := (Infinite.exists_notMem_finset used).choose
  alloc_fresh used := (Infinite.exists_notMem_finset used).choose_spec

def scriptKeys : Keystore where
  isMine txout := txout.scriptPubKey == [1]
  nMinimumInputValue := 0

/-- The wallet received a coin, and spent it together with a coin of somebody else. -/
def jointWallet : Wallet :=
  (Wallet.put ⟨∅⟩ 1 (.ofTx ⟨1, 0, [], [⟨5, [1]⟩], 0⟩)).put 2
    (.ofTx ⟨1, 0, [⟨⟨1, 0⟩, [], 0⟩, ⟨⟨9, 0⟩, [], 0⟩], [⟨8, [2]⟩], 0⟩)

end Simnet

open Simnet in
/-- The coin of somebody else is looked up in an empty transaction that the look-up makes. -/
theorem getAddressGroupings_joint : getAddressGroupings scriptAddresses scriptKeys jointWallet
        = .error (.crash "mapWallet[txin.prevout.hash].vout[txin.prevout.n]") ∧
      ¬ GroupsAddresses scriptAddresses scriptKeys jointWallet
        (getAddressGroupings scriptAddresses scriptKeys jointWallet) := by
  have hrun : getAddressGroupings scriptAddresses scriptKeys jointWallet
      = .error (.crash "mapWallet[txin.prevout.hash].vout[txin.prevout.n]") := rfl
  refine ⟨hrun, ?_⟩
  rintro ⟨ret, hret, -⟩
  cases hrun.symm.trans hret

end Espers
