import Espers.Chain.World
import Espers.Lib.Forest

/-!
# Walks on the block index

The loops of `RollingCheckpoints` and `Reorganize` that follow `pprev`: the walk to the checkpoint,
the walk that checks a branch against it, the search for the fork, and the lists of blocks to
disconnect and connect.  On a well-formed index (`IndexTree`) they compute what the library of
forests defines.

* `rollBack_eq_walk` : the counter loop of `RollingCheckpoints` walks a fixed number of steps.
* `qualityWalk_spec` : the quality check passes only if the checkpoint is on the branch.
* `findFork_spec` : the fork found is the last common ancestor.
* `listBranch_spec` : the lists are the branches down to the fork.
-/

namespace Espers

open Exec Option Forest

/-! ### The source -/

/-- The loop of `RollingCheckpoints`: a counter that starts below the height of the entry is counted
up to it, one step back for each count. -/
def rollBack (m : BlockMap) (nHeight : ℤ) : ℕ → ℤ → Uint256 → Option Uint256
  | 0, _, _ => none
  | fuel + 1, past, p =>
    if past < nHeight then
      ((m.lookup p).bind CBlockIndex.pprev).bind (rollBack m nHeight fuel (past + 1))
    else some p

/-- The loop of `Reorganize` that walks the merging branch back to the checkpoint. -/
def qualityWalk (m : BlockMap) (rollingBlock : Uint256) (rollingHeight : ℤ) :
    ℕ → ℤ → Uint256 → Option Uint256
  | 0, _, _ => none
  | fuel + 1, pHeightMerge, p =>
    if pHeightMerge > rollingHeight then
      match m.lookup p with
      | none => none
      | some e =>
        if e.hashBlock = rollingBlock then some p
        else e.pprev.bind (qualityWalk m rollingBlock rollingHeight fuel (pHeightMerge - 1))
    else some p

/-- The search for the fork: the merging branch steps back while it is higher, else the best one
does.  (The inner loop of the source is unrolled into the outer one.) -/
def findFork (m : BlockMap) : ℕ → Uint256 → Uint256 → Except Stop Uint256
  | 0, _, _ => .error (.crash "Reorganize() : the search does not end")
  | fuel + 1, pfork, pMerge =>
    if pfork = pMerge then .ok pfork
    else
      match m.lookup pfork, m.lookup pMerge with
      | some f, some g =>
        if g.nHeight > f.nHeight then
          match g.pprev with
          | none => .error (.error "Reorganize() : plonger->pprev is null")
          | some q => findFork m fuel pfork q
        else
          match f.pprev with
          | none => .error (.error "Reorganize() : pfork->pprev is null")
          | some q => findFork m fuel q pMerge
      | _, _ => .error (.crash "null pointer")

/-- `for (pindex = p; pindex != pfork; pindex = pindex->pprev)`. -/
def listBranch (m : BlockMap) (pfork : Uint256) : ℕ → Uint256 → Option (List Uint256)
  | 0, _ => none
  | fuel + 1, p =>
    if p = pfork then some []
    else ((m.lookup p).bind CBlockIndex.pprev).bind fun q =>
      (listBranch m pfork fuel q).map (p :: ·)

/-! ### The index as a forest -/

/-- `pprev`, as a partial function on hashes. -/
def BlockMap.parent (m : BlockMap) (p : Uint256) : Option Uint256 :=
  (m.lookup p).bind CBlockIndex.pprev

/-- The height of an entry. -/
def BlockMap.height (m : BlockMap) (p : Uint256) : ℕ :=
    ((m.lookup p).map CBlockIndex.nHeight).getD 0

/-- The block index is a tree: every entry is filed under its own hash and has a parent in the
index, one level below it, except for the root at height 0. -/
structure IndexTree (m : BlockMap) (root : Uint256) : Prop where
  hash : ∀ p e, m.lookup p = some e → e.hashBlock = p
  prev : ∀ p e q, m.lookup p = some e → e.pprev = some q →
    ∃ d, m.lookup q = some d ∧ e.nHeight = d.nHeight + 1
  root_eq : ∀ p e, m.lookup p = some e → e.pprev = none → p = root ∧ e.nHeight = 0

variable {m : BlockMap} {root : Uint256} {p q : Uint256} {e : CBlockIndex}

theorem BlockMap.height_of_lookup (h : m.lookup p = some e) : BlockMap.height m p = e.nHeight := by
  simp [BlockMap.height, h]

theorem BlockMap.parent_of_lookup (h : m.lookup p = some e) : BlockMap.parent m p = e.pprev := by
  simp [BlockMap.parent, h]

theorem BlockMap.parent_eq_some :
    BlockMap.parent m p = some q ↔ ∃ e, m.lookup p = some e ∧ e.pprev = some q := by
  simp [BlockMap.parent, bind_eq_some_iff]

namespace IndexTree

section

variable (ht : IndexTree m root)
include ht

theorem graded : Graded (BlockMap.parent m) (BlockMap.height m) := by
  intro a b h
  obtain ⟨e, he, hq⟩ := BlockMap.parent_eq_some.1 h
  obtain ⟨d, hd, hh⟩ := ht.prev a e b he hq
  rw [BlockMap.height_of_lookup he, BlockMap.height_of_lookup hd, hh]

theorem exists_parent (he : (m.lookup p).isSome)
    (hh : 0 < BlockMap.height m p) : ∃ q, BlockMap.parent m p = some q ∧ (m.lookup q).isSome := by
  obtain ⟨e, he⟩ := isSome_iff_exists.1 he
  cases hq : e.pprev with
  | none =>
    have := (ht.root_eq p e he hq).2
    rw [BlockMap.height_of_lookup he] at hh
    omega
  | some q =>
    obtain ⟨d, hd, -⟩ := ht.prev p e q he hq
    exact ⟨q, BlockMap.parent_eq_some.2 ⟨e, he, hq⟩, by simp [hd]⟩

theorem mem_of_anc (h : Anc (BlockMap.parent m) p q)
    (hp : (m.lookup p).isSome) : (m.lookup q).isSome := by
  induction h with
  | refl => exact hp
  | tail _ hst _ =>
    obtain ⟨e, he, hq⟩ := BlockMap.parent_eq_some.1 hst
    obtain ⟨d, hd, -⟩ := ht.prev _ e _ he hq
    simp [hd]

theorem eq_root (he : (m.lookup p).isSome) (hh : BlockMap.height m p = 0) : p = root := by
  obtain ⟨e, he⟩ := isSome_iff_exists.1 he
  cases hq : e.pprev with
  | none => exact (ht.root_eq p e he hq).1
  | some q =>
    obtain ⟨d, -, hd⟩ := ht.prev p e q he hq
    rw [BlockMap.height_of_lookup he] at hh
    omega

theorem anc_root (he : (m.lookup p).isSome) : Anc (BlockMap.parent m) p root := by
  obtain ⟨c, hc, hcm⟩ := exists_walk (P := fun p => (m.lookup p).isSome) ht.graded
    (fun a ha hpos => ht.exists_parent ha hpos) he le_rfl
  have hanc := anc_of_walk hc
  have hh := height_of_walk ht.graded hc
  rwa [ht.eq_root hcm (by omega)] at hanc

end

end IndexTree

/-! ### What the walks compute -/

/-- **The counter loop walks as many steps as the counter starts below the height.** -/
theorem rollBack_eq_walk {nHeight past : ℤ} {fuel k : ℕ} (hk : nHeight - past = k)
    (hf : k < fuel) : rollBack m nHeight fuel past p = walk (BlockMap.parent m) k p := by
  induction fuel generalizing past k p with
  | zero => omega
  | succ fuel ih =>
    rw [rollBack]
    cases k with
    | zero => rw [if_neg (by omega)]; rfl
    | succ k =>
      rw [if_pos (by omega), walk, BlockMap.parent]
      congr 1
      funext q
      exact ih (by omega) (by omega)

theorem qualityWalk_spec {rollingBlock : Uint256} {rollingHeight : ℤ} {fuel : ℕ} {h : ℤ}
    (hw : qualityWalk m rollingBlock rollingHeight fuel h p = some q) :
    Anc (BlockMap.parent m) p q := by
  induction fuel generalizing h p with
  | zero => cases hw
  | succ fuel ih =>
    rw [qualityWalk] at hw
    split_ifs at hw with hc
    · cases he : m.lookup p with
      | none => rw [he] at hw; cases hw
      | some e =>
        rw [he] at hw
        simp only at hw
        split_ifs at hw with hr
        · cases hw; exact .refl _
        · obtain ⟨r, hr, hw⟩ := bind_eq_some_iff.1 hw
          exact Anc.head (BlockMap.parent_eq_some.2 ⟨e, he, hr⟩) (ih hw)
    · cases hw; exact .refl _

/-- **The fork found is the last common ancestor.** -/
theorem findFork_spec (ht : IndexTree m root) {fuel : ℕ} {f a b : Uint256}
    (h : findFork m fuel a b = .ok f) : IsMeet (BlockMap.parent m) f a b := by
  induction fuel generalizing a b with
  | zero => cases h
  | succ fuel ih =>
    rw [findFork] at h
    split_ifs at h with hab
    · cases h; subst hab; exact .refl _
    · cases ha : m.lookup a with
      | none => rw [ha] at h; cases h
      | some ea =>
        cases hb : m.lookup b with
        | none => rw [ha, hb] at h; cases h
        | some eb =>
          rw [ha, hb] at h
          simp only at h
          have hha := BlockMap.height_of_lookup ha
          have hhb := BlockMap.height_of_lookup hb
          split_ifs at h with hlt
          · cases hq : eb.pprev with
            | none => rw [hq] at h; cases h
            | some q =>
              rw [hq] at h
              exact IsMeet.of_step_right ht.graded (BlockMap.parent_eq_some.2 ⟨eb, hb, hq⟩)
                (by omega) (ih h)
          · cases hq : ea.pprev with
            | none => rw [hq] at h; cases h
            | some q =>
              rw [hq] at h
              exact IsMeet.of_step_left ht.graded (BlockMap.parent_eq_some.2 ⟨ea, ha, hq⟩)
                (by omega) hab (ih h)

theorem listBranch_spec {f : Uint256} {fuel : ℕ} {l : List Uint256}
    (h : listBranch m f fuel p = some l) : Down (BlockMap.parent m) p l f := by
  induction fuel generalizing p l with
  | zero => cases h
  | succ fuel ih =>
    rw [listBranch] at h
    split_ifs at h with hp
    · cases h; subst hp; exact .nil _
    · obtain ⟨q, hq, h⟩ := bind_eq_some_iff.1 h
      obtain ⟨l', hl', rfl⟩ := map_eq_some_iff.1 h
      exact .cons hq (ih hl')

end Espers
