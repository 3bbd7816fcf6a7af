import Mathlib.Data.List.AList

/-!
# Key–value stores with a pending batch

A store is a finite map from keys to values (`AList`, the type of a value may depend on its key).
A *handle* on it may have a batch open: writes and deletes are then queued in the batch, in order,
and reach the store when the batch is committed, or never, when it is aborted.  Reads look into
the batch first.

* `Db.read_eq_lookup` : a read through an open batch answers what the store would hold after the
  commit.
* `Db.read_write_self`, `Db.read_write_ne`, `Db.read_erase_self`, `Db.read_erase_ne` : a write or
  a delete changes the answer at its own key only.
* `Db.read_commit`, `Db.commit_pdb` : a commit changes no answer, and the store then holds them.
-/

namespace Store

open AList Option

universe u v

variable {K : Type u} {β : K → Type v}

/-- One entry of a batch. -/
inductive Op (β : K → Type v) where
  /-- Write `v` at `k`. -/
  | put (k : K) (v : β k)
  /-- Remove the value at `k`. -/
  | delete (k : K)

/-- A handle on a store, with the batch it may have open (oldest entry first). -/
structure Db (β : K → Type v) where
  /-- The committed store. -/
  pdb : AList β
  /-- The entries of the open batch. -/
  activeBatch : Option (List (Op β))

namespace Db

/-- Open a batch. -/
def begin (db : Db β) : Db β := { db with activeBatch := some [] }

/-- Close the open batch without applying it. -/
def abort (db : Db β) : Db β := { db with activeBatch := none }

/-- A new handle on the same store, which has no batch open. -/
def fresh (db : Db β) : Db β := ⟨db.pdb, none⟩

@[simp] theorem abort_pdb (db : Db β) : db.abort.pdb = db.pdb := rfl

end Db

variable [DecidableEq K]

theorem lookup_of_erase {s : AList β} {a k : K} {v : β a} (h : (s.erase k).lookup a = some v) :
    s.lookup a = some v := by
  by_cases ha : a = k
  · subst ha
    rw [lookup_erase] at h
    cases h
  · rwa [lookup_erase_ne ha] at h

theorem lookup_erase_none {s : AList β} {a : K} (h : s.lookup a = none) (k : K) :
    (s.erase k).lookup a = none :=
  eq_none_iff_forall_ne_some.2 fun v hv => by cases h.symm.trans (lookup_of_erase hv)

/-- The effect of one batch entry on the store. -/
def Op.apply (s : AList β) : Op β → AList β
  | .put k v => s.insert k v
  | .delete k => s.erase k

/-- What is known about `k` after one more batch entry: `some (some v)` when it has been written,
`some none` when it has been deleted, `none` when no entry names it. -/
def Op.scan (k : K) (found : Option (Option (β k))) : Op β → Option (Option (β k))
  | .put k' v => if h : k' = k then some (some (h ▸ v)) else found
  | .delete k' => if k' = k then some none else found

/-- The last entry of a batch about `k`. -/
def scanBatch (b : List (Op β)) (k : K) : Option (Option (β k)) := b.foldl (Op.scan k) none

/-- The store after the whole batch. -/
def applyBatch (s : AList β) (b : List (Op β)) : AList β := b.foldl Op.apply s

theorem lookup_apply (s : AList β) (op : Op β) (k : K) :
    (op.apply s).lookup k = (op.scan k none).getD (s.lookup k) := by
  cases op with
  | put k' v =>
    by_cases h : k' = k
    · subst h; simp [Op.apply, Op.scan]
    · simp [Op.apply, Op.scan, h, lookup_insert_ne (Ne.symm h)]
  | delete k' =>
    by_cases h : k' = k
    · subst h; simp [Op.apply, Op.scan]
    · simp [Op.apply, Op.scan, h, lookup_erase_ne (Ne.symm h)]

theorem scan_getD (k : K) (found : Option (Option (β k))) (op : Op β) (d : Option (β k)) :
    (op.scan k found).getD d = (op.scan k none).getD (found.getD d) := by
  cases op <;> simp only [Op.scan] <;> split_ifs <;> simp

theorem lookup_applyBatch (s : AList β) (b : List (Op β)) (k : K) :
    (applyBatch s b).lookup k = (scanBatch b k).getD (s.lookup k) := by
  have key : ∀ (b : List (Op β)) (s : AList β) (found : Option (Option (β k))) (d : Option (β k)),
      s.lookup k = found.getD d → (b.foldl Op.apply s).lookup k =
      (b.foldl (Op.scan k) found).getD d := by
    intro b
    induction b with
    | nil => intro s found d h; exact h
    | cons op b ih =>
      intro s found d h
      refine ih _ _ d ?_
      rw [lookup_apply, h]
      exact (scan_getD k found op d).symm
  exact key b s none _ rfl

namespace Db

/-- The value at `k`, as the holder of the handle sees it. -/
def read (db : Db β) (k : K) : Option (β k) :=
  match db.activeBatch with
  | none => db.pdb.lookup k
  | some b =>
    match scanBatch b k with
    | some r => r
    | none => db.pdb.lookup k

/-- Write `v` at `k`: into the open batch, or straight into the store. -/
def write (db : Db β) (k : K) (v : β k) : Db β :=
  match db.activeBatch with
  | none => { db with pdb := db.pdb.insert k v }
  | some b => { db with activeBatch := some (b ++ [.put k v]) }

/-- Delete the value at `k`: in the open batch, or straight in the store. -/
def erase (db : Db β) (k : K) : Db β :=
  match db.activeBatch with
  | none => { db with pdb := db.pdb.erase k }
  | some b => { db with activeBatch := some (b ++ [.delete k]) }

/-- Apply the open batch to the store and close it. -/
def commit (db : Db β) : Db β :=
  { pdb := applyBatch db.pdb (db.activeBatch.getD []), activeBatch := none }

@[simp] theorem commit_activeBatch (db : Db β) : db.commit.activeBatch = none := rfl

/-- **Reads see the batch**: a read answers what the store would hold after the commit. -/
theorem read_eq_lookup (db : Db β) (k : K) : db.read k = db.commit.pdb.lookup k := by
  unfold read commit
  cases db.activeBatch with
  | none => rfl
  | some b =>
    simp only [getD_some, lookup_applyBatch]
    cases scanBatch b k <;> rfl

theorem read_of_noBatch {db : Db β} (h : db.activeBatch = none) (k : K) :
    db.read k = db.pdb.lookup k := by
  simp [read, h]

section

variable (db : Db β)
include db

theorem commit_write_pdb (k : K) (v : β k) :
    (db.write k v).commit.pdb = db.commit.pdb.insert k v := by
  unfold write commit
  cases db.activeBatch with
  | none => rfl
  | some b => simp [applyBatch, Op.apply]

theorem commit_erase_pdb (k : K) : (db.erase k).commit.pdb = db.commit.pdb.erase k := by
  unfold erase commit
  cases db.activeBatch with
  | none => rfl
  | some b => simp [applyBatch, Op.apply]

@[simp] theorem read_write_self (k : K) (v : β k) : (db.write k v).read k = some v := by
  rw [read_eq_lookup, commit_write_pdb, lookup_insert]

theorem read_write_ne {k k' : K} (v : β k) (h : k' ≠ k) : (db.write k v).read k' = db.read k' := by
  rw [read_eq_lookup, commit_write_pdb, lookup_insert_ne h, read_eq_lookup]

@[simp] theorem read_erase_self (k : K) : (db.erase k).read k = none := by
  rw [read_eq_lookup, commit_erase_pdb, lookup_erase]

theorem read_erase_ne {k k' : K} (h : k' ≠ k) : (db.erase k).read k' = db.read k' := by
  rw [read_eq_lookup, commit_erase_pdb, lookup_erase_ne h, read_eq_lookup]

@[simp] theorem read_begin (k : K) : db.begin.read k = db.pdb.lookup k := rfl

@[simp] theorem read_commit (k : K) : db.commit.read k = db.read k := by
  rw [read_of_noBatch (commit_activeBatch db), read_eq_lookup]

theorem commit_pdb (k : K) : db.commit.pdb.lookup k = db.read k :=
  (read_eq_lookup db k).symm

end

theorem write_pdb {db : Db β} (h : db.activeBatch.isSome) (k : K) (v : β k) :
    (db.write k v).pdb = db.pdb ∧ (db.write k v).activeBatch.isSome := by
  unfold write
  cases hb : db.activeBatch with
  | none => simp [hb] at h
  | some b => simp

theorem erase_pdb {db : Db β} (h : db.activeBatch.isSome) (k : K) :
    (db.erase k).pdb = db.pdb ∧ (db.erase k).activeBatch.isSome := by
  unfold erase
  cases hb : db.activeBatch with
  | none => simp [hb] at h
  | some b => simp

end Db

end Store
