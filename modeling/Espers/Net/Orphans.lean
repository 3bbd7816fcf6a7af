import Espers.Core.Block
import Espers.Lib.Store
import Espers.Lib.Walk
import Mathlib.Data.List.Sort

/-!
# Orphan blocks

A block whose parent is unknown is kept under its own hash in `mapOrphanBlocks` and under the hash
of its parent in `mapOrphanBlocksByPrev`, a multimap: a list sorted by key, in which equal keys
stand in the order of insertion.  Both maps point to one record; it is stored here in both.

* `OrphanStore.Holds m l` : the map and the multimap hold the same records.
* `pruneOrphanBlocks_spec` : **the walk of `PruneOrphanBlocks` ends at a record on which no other
  depends**, and that record is removed from both maps.
* `getOrphanRoot_isSome`, `wantedByOrphan_isSome` : the walks down to the root of an orphan end.
-/

namespace Espers

open Relation List AList Nat

/-- A block kept until its parent arrives. -/
structure COrphanBlock where
  hashBlock : Uint256
  hashPrev : Uint256
  stake : COutPoint × ℕ
  /-- The serialized block. -/
  vchBlock : CBlock
  deriving DecidableEq

/-- The entry of a record in the multimap. -/
def COrphanBlock.byPrev (r : COrphanBlock) : Uint256 × COrphanBlock := (r.hashPrev, r)

/-- The orphan blocks. -/
structure OrphanStore where
  mapOrphanBlocks : AList fun _ : Uint256 => COrphanBlock
  mapOrphanBlocksByPrev : List (Uint256 × COrphanBlock)
  setStakeSeenOrphan : List (COutPoint × ℕ)

namespace OrphanStore

/-- No orphan yet. -/
def empty : OrphanStore := ⟨∅, [], []⟩

/-- `GetOrphanRoot`; `none` when the loop does not end. -/
def getOrphanRoot (o : OrphanStore) (hash : Uint256) : Option Uint256 :=
  Walk.last (fun h => (o.mapOrphanBlocks.lookup h).bind fun r =>
      if (o.mapOrphanBlocks.lookup r.hashPrev).isSome then some r.hashPrev else none)
    (o.mapOrphanBlocks.entries.length + 1) hash

/-- `WantedByOrphan`; `none` when the loop does not end. -/
def wantedByOrphan (o : OrphanStore) (pblockOrphan : COrphanBlock) : Option Uint256 :=
  (Walk.last (fun r => o.mapOrphanBlocks.lookup r.hashPrev) (o.mapOrphanBlocks.entries.length + 1)
    pblockOrphan).map COrphanBlock.hashPrev

/-- `mapOrphanBlocksByPrev.find(it->second->hashBlock)`. -/
def successor (o : OrphanStore) (it : Uint256 × COrphanBlock) : Option (Uint256 × COrphanBlock) :=
  o.mapOrphanBlocksByPrev.find? fun it2 => it2.1 = it.2.hashBlock

/-- A record is removed from both maps. -/
def remove (o : OrphanStore) (it : Uint256 × COrphanBlock) : OrphanStore where
  mapOrphanBlocks := o.mapOrphanBlocks.erase it.2.hashBlock
  mapOrphanBlocksByPrev := o.mapOrphanBlocksByPrev.erase it
  setStakeSeenOrphan := o.setStakeSeenOrphan.filter (· ≠ it.2.stake)

/-- `PruneOrphanBlocks`, with the value of `-maxorphanblocks` and of `insecure_rand()`; `none` when
the loop does not end. -/
def pruneOrphanBlocks (maxorphanblocks : ℤ) (rand : ℕ) (o : OrphanStore) : Option OrphanStore :=
  if o.mapOrphanBlocksByPrev.length ≤ (max 0 maxorphanblocks).toNat then some o
  else do
    -- Pick a random orphan block.
    let it ← o.mapOrphanBlocksByPrev[rand % o.mapOrphanBlocksByPrev.length]?
    -- As long as this block has other orphans depending on it, move to one of those successors.
    let it ← Walk.last o.successor (o.mapOrphanBlocksByPrev.length + 1) it
    pure (o.remove it)

/-- A record is added to both maps. -/
def insert (o : OrphanStore) (r : COrphanBlock) (fProofOfStake : Bool) : OrphanStore where
  mapOrphanBlocks := o.mapOrphanBlocks.insert r.hashBlock r
  mapOrphanBlocksByPrev :=
    o.mapOrphanBlocksByPrev.orderedInsert (fun a b => a.1 < b.1) r.byPrev
  setStakeSeenOrphan :=
    if fProofOfStake then r.stake :: o.setStakeSeenOrphan else o.setStakeSeenOrphan

end OrphanStore

namespace OrphanStore

/-! ### The two maps -/

theorem mem_keys_of_lookup {m : AList fun _ : Uint256 => COrphanBlock} {hash : Uint256}
    {r : COrphanBlock} (hr : m.lookup hash = some r) : hash ∈ m.keys := by
  rw [← AList.mem_keys, ← AList.lookup_isSome, hr]
  rfl

/-- The map and the multimap hold the same records, each under its own hash and under the hash of
its parent. -/
structure Holds (m : AList fun _ : Uint256 => COrphanBlock) (l : List (Uint256 × COrphanBlock)) :
    Prop where
  key : ∀ hash r, m.lookup hash = some r → r.hashBlock = hash
  perm : l.Perm (m.entries.map fun e => e.2.byPrev)

namespace Holds

variable {m : AList fun _ : Uint256 => COrphanBlock} {l l' : List (Uint256 × COrphanBlock)}
  {r : COrphanBlock}

theorem nil : Holds ∅ [] := ⟨by simp, List.Perm.nil⟩

theorem mem_iff (h : Holds m l) {x : Uint256 × COrphanBlock} :
    x ∈ l ↔ x.1 = x.2.hashPrev ∧ m.lookup x.2.hashBlock = some x.2 := by
  rw [h.perm.mem_iff, mem_map]
  constructor
  · rintro ⟨⟨hash, r⟩, he, rfl⟩
    have hl : m.lookup hash = some r := mem_lookup_iff.2 he
    refine ⟨rfl, ?_⟩
    simp only [COrphanBlock.byPrev]
    rw [h.key hash r hl]
    exact hl
  · rintro ⟨h1, h2⟩
    exact ⟨⟨_, _⟩, mem_lookup_iff.1 h2, Prod.ext h1.symm rfl⟩

theorem length_eq (h : Holds m l) : m.entries.length = l.length := by
  rw [h.perm.length_eq, length_map]

theorem insert (h : Holds m l) (hnew : m.lookup r.hashBlock = none) :
    Holds (m.insert r.hashBlock r) (l.orderedInsert (fun a b => a.1 < b.1) r.byPrev) := by
  refine ⟨?_, ?_⟩
  · intro hash r' hl
    by_cases heq : hash = r.hashBlock
    · subst heq
      rw [lookup_insert] at hl
      cases hl
      rfl
    · rw [lookup_insert_ne heq] at hl
      exact h.key hash r' hl
  · rw [entries_insert_of_notMem (lookup_eq_none.1 hnew), map_cons]
    exact (perm_orderedInsert _ _ _).trans (h.perm.cons _)

/-- A record is taken out of both maps. -/
theorem erase (h : Holds m l) (hl : l.Perm (r.byPrev :: l')) : Holds (m.erase r.hashBlock) l' := by
  have hr : m.lookup r.hashBlock = some r :=
    (h.mem_iff.1 (hl.mem_iff.2 mem_cons_self)).2
  refine ⟨?_, ?_⟩
  · exact fun hash r' hlook => h.key hash r' (Store.lookup_of_erase hlook)
  · obtain ⟨b, l1, l2, -, hentries, hrest⟩ := exists_of_kerase (mem_keys_of_lookup hr)
    -- the entry that goes is the one of the record
    have hb : m.lookup r.hashBlock = some b := mem_lookup_iff.2 (by rw [hentries]; simp)
    obtain rfl : r = b := Option.some.inj (hr.symm.trans hb)
    have hperm := hl.symm.trans h.perm
    rw [hentries, map_append, map_cons] at hperm
    have hcons := (hperm.trans perm_middle).cons_inv
    rw [← map_append, ← hrest] at hcons
    exact hcons

end Holds

/-! ### The walks -/

section Walks

variable {link : Uint256 → Uint256 → Prop} {o : OrphanStore}

/-- Every orphan is linked to its parent. -/
def Linked (link : Uint256 → Uint256 → Prop) (o : OrphanStore) : Prop :=
  ∀ hash r, o.mapOrphanBlocks.lookup hash = some r → link hash r.hashPrev

theorem getOrphanRoot_isSome (hlink : o.Linked link) (hacyclic : ∀ h, ¬ TransGen link h h)
    (hash : Uint256) : ∃ root, o.getOrphanRoot hash = some root := by
  have hstep : ∀ a b, ((o.mapOrphanBlocks.lookup a).bind fun r =>
      if (o.mapOrphanBlocks.lookup r.hashPrev).isSome then some r.hashPrev else none) = some b →
      link a b ∧ b ∈ o.mapOrphanBlocks.keys := by
    intro a b h
    obtain ⟨r, hr, hb⟩ := Option.bind_eq_some_iff.1 h
    split_ifs at hb with hp
    cases hb
    obtain ⟨r', hr'⟩ := Option.isSome_iff_exists.1 hp
    exact ⟨hlink a r hr, mem_keys_of_lookup hr'⟩
  obtain ⟨z, hz, -, -⟩ := Walk.exists_last id hacyclic hstep (lt_succ_self _) hash
  exact ⟨z, by simpa [getOrphanRoot, AList.keys, List.keys] using hz⟩

theorem wantedByOrphan_isSome (hlink : o.Linked link) (hacyclic : ∀ h, ¬ TransGen link h h)
    (r : COrphanBlock) : ∃ wanted, o.wantedByOrphan r = some wanted := by
  have hstep : ∀ a b : COrphanBlock, o.mapOrphanBlocks.lookup a.hashPrev = some b →
      link a.hashPrev b.hashPrev ∧ b ∈ o.mapOrphanBlocks.entries.map Sigma.snd := by
    intro a b hb
    exact ⟨hlink a.hashPrev b hb, mem_map.2 ⟨⟨_, b⟩, mem_lookup_iff.1 hb, rfl⟩⟩
  obtain ⟨z, hz, -, -⟩ := Walk.exists_last _ hacyclic hstep (lt_succ_self _) r
  rw [length_map] at hz
  exact ⟨z.hashPrev, by rw [wantedByOrphan, hz]; rfl⟩

theorem acyclic_swap (hacyclic : ∀ h, ¬ TransGen link h h) (h : Uint256) :
    ¬ TransGen (Function.swap link) h h := by
  rw [transGen_swap]
  exact hacyclic h

/-- A `PruneOrphanBlocks` that returns removes one record at most. -/
theorem pruneOrphanBlocks_cases {o' : OrphanStore} {maxorphanblocks : ℤ} {rand : ℕ}
    (hholds : Holds o.mapOrphanBlocks o.mapOrphanBlocksByPrev)
    (h : o.pruneOrphanBlocks maxorphanblocks rand = some o') :
    o' = o ∨ ∃ r : COrphanBlock, r.byPrev ∈ o.mapOrphanBlocksByPrev ∧ o' = o.remove r.byPrev := by
  unfold pruneOrphanBlocks at h
  split_ifs at h with hfew
  · exact .inl (Option.some.inj h).symm
  obtain ⟨it, hit, h⟩ := Option.bind_eq_some_iff.1 h
  obtain ⟨z, hz, h⟩ := Option.bind_eq_some_iff.1 h
  cases h
  -- the walk begins at an entry of the multimap and stays there
  have hmem : z ∈ o.mapOrphanBlocksByPrev := by
    rcases (Walk.reaches_last hz).cases_tail with heq | ⟨y, -, hy⟩
    · exact heq ▸ mem_of_getElem? hit
    · exact mem_of_find?_eq_some hy
  have hzr : z.2.byPrev = z := Prod.ext (hholds.mem_iff.1 hmem).1.symm rfl
  exact .inr ⟨z.2, hzr ▸ hmem, hzr ▸ rfl⟩

/-- **A record is pruned on which no other record depends**, and nothing else is removed. -/
theorem pruneOrphanBlocks_spec (hholds : Holds o.mapOrphanBlocks o.mapOrphanBlocksByPrev)
    (hlink : o.Linked link) (hacyclic : ∀ h, ¬ TransGen link h h) (maxorphanblocks : ℤ) (rand : ℕ) :
    o.mapOrphanBlocksByPrev.length ≤ (max 0 maxorphanblocks).toNat ∧
        o.pruneOrphanBlocks maxorphanblocks rand = some o ∨
      (max 0 maxorphanblocks).toNat < o.mapOrphanBlocksByPrev.length ∧
      ∃ r : COrphanBlock, r.byPrev ∈ o.mapOrphanBlocksByPrev ∧
        o.pruneOrphanBlocks maxorphanblocks rand = some (o.remove r.byPrev) ∧
        ∀ hash r', o.mapOrphanBlocks.lookup hash = some r' → r'.hashPrev ≠ r.hashBlock := by
  by_cases hfew : o.mapOrphanBlocksByPrev.length ≤ (max 0 maxorphanblocks).toNat
  · exact .inl ⟨hfew, by rw [pruneOrphanBlocks, if_pos hfew]⟩
  have hmany := Nat.lt_of_not_le hfew
  have hpos : rand % o.mapOrphanBlocksByPrev.length < o.mapOrphanBlocksByPrev.length :=
    Nat.mod_lt _ (by omega)
  refine .inr ⟨hmany, ?_⟩
  set it := o.mapOrphanBlocksByPrev[rand % o.mapOrphanBlocksByPrev.length] with hit
  have hmem : it ∈ o.mapOrphanBlocksByPrev := getElem_mem hpos
  -- each step goes from a parent to a child
  have hstep : ∀ a b, o.successor a = some b →
      Function.swap link a.2.hashBlock b.2.hashBlock ∧ b ∈ o.mapOrphanBlocksByPrev := by
    intro a b h
    have hb : b ∈ o.mapOrphanBlocksByPrev := mem_of_find?_eq_some h
    have hkey : b.1 = a.2.hashBlock := by simpa using find?_some h
    obtain ⟨hprev, hlook⟩ := hholds.mem_iff.1 hb
    refine ⟨?_, hb⟩
    have := hlink _ _ hlook
    rwa [← hprev, hkey] at this
  obtain ⟨z, hz, hreach, hend⟩ := Walk.exists_last (fun it => it.2.hashBlock)
    (acyclic_swap hacyclic) hstep (Nat.lt_succ_self _) it
  have hzmem : z ∈ o.mapOrphanBlocksByPrev := by
    rcases hreach.cases_tail with heq | ⟨y, -, hy⟩
    · exact heq ▸ hmem
    · exact (hstep y z hy).2
  have hzr : z.2.byPrev = z := Prod.ext (hholds.mem_iff.1 hzmem).1.symm rfl
  refine ⟨z.2, hzr ▸ hzmem, ?_, ?_⟩
  · rw [pruneOrphanBlocks, if_neg hfew, getElem?_eq_getElem hpos, ← hit, hzr]
    simp [hz]
  · intro hash r' hlook hdep
    -- a dependent record would be found by one more step
    have hkey := hholds.key hash r' hlook
    have hr' : r'.byPrev ∈ o.mapOrphanBlocksByPrev := hholds.mem_iff.2 ⟨rfl, hkey ▸ hlook⟩
    have := find?_eq_none.1 hend r'.byPrev hr'
    simp [COrphanBlock.byPrev, hdep] at this

end Walks

end OrphanStore

end Espers
