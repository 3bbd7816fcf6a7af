import Espers.Lib.Store
import Mathlib.Data.List.Induction

/-!
# Reads inside a database transaction

`CTxDB` is a wrapper of a LevelDB database, which maps bytes to bytes.  Between `TxnBegin` and
`TxnCommit` what is written and erased goes to a batch; `Read` and `Exists` look for the key in the
batch first (`ScanBatch`), and in the database if it is not there.  The database and the iteration
over a batch are those of the library (`Store.Db`), and the handle is one that may write.

* `find_eq_read` : `Read` sees the batch as a transaction should be seen.
* `exists_eq` : `Exists` takes a deletion in the batch for no entry, and asks the database.
* `reads_agree_iff` : **`Read` and `Exists` answer as they would after the commit**, unless the last
  operation on a stored key is to erase it.
-/

namespace Espers

open Store List Bool Option

/-- A key or a value as it is stored. -/
abbrev RawBytes := List UInt8

/-- What the database stores. -/
abbrev RawStore := AList fun _ : RawBytes => RawBytes

/-- An operation of a batch. -/
abbrev RawOp := Store.Op fun _ : RawBytes => RawBytes

/-- A handle on the database. -/
abbrev RawTxDB := Store.Db fun _ : RawBytes => RawBytes

/-! ### The source -/

/-- `CBatchScanner`, with the variables that its pointers point to. -/
structure CBatchScanner where
  needle : RawBytes
  deleted : Bool := false
  foundValue : RawBytes := []
  foundEntry : Bool := false

/-- `CBatchScanner::Put` and `CBatchScanner::Delete`. -/
def CBatchScanner.handle (scanner : CBatchScanner) : RawOp → CBatchScanner
  | .put key value =>
    if key = scanner.needle then
      { scanner with foundEntry := true, deleted := false, foundValue := value }
    else scanner
  | .delete key =>
    if key = scanner.needle then { scanner with foundEntry := true, deleted := true } else scanner

namespace RawTxDB

/-- `CTxDB::ScanBatch`. -/
def scanBatch (activeBatch : List RawOp) (key : RawBytes) :
    CBatchScanner :=
  activeBatch.foldl CBatchScanner.handle { needle := key }

/-- `CTxDB::Read` up to the value found. -/
def find (txdb : RawTxDB) (ssKey : RawBytes) : Option RawBytes :=
  match txdb.activeBatch with
  | none => txdb.pdb.lookup ssKey
  | some activeBatch =>
    let scanner := scanBatch activeBatch ssKey
    if scanner.deleted then none
    else if scanner.foundEntry then some scanner.foundValue
    else txdb.pdb.lookup ssKey

/-- `CTxDB::Read`; `unserialize` is what `ssValue >> value` does, with no result when it throws. -/
def read {T : Type} (unserialize : RawBytes → Option T) (txdb : RawTxDB) (ssKey : RawBytes) :
    Option T :=
  (txdb.find ssKey).bind unserialize

/-- `CTxDB::Exists`. -/
def «exists» (txdb : RawTxDB) (ssKey : RawBytes) : Bool :=
  match txdb.activeBatch with
  | none => (txdb.pdb.lookup ssKey).isSome
  | some activeBatch =>
    let scanner := scanBatch activeBatch ssKey
    if scanner.foundEntry && !scanner.deleted then true
    else (txdb.pdb.lookup ssKey).isSome

/-- `CTxDB::Write` or `CTxDB::Erase`. -/
def perform (txdb : RawTxDB) : RawOp → RawTxDB
  | .put ssKey ssValue => txdb.write ssKey ssValue
  | .delete ssKey => txdb.erase ssKey

/-- `CTxDB::TxnBegin`. -/
def txnBegin (txdb : RawTxDB) : RawTxDB := Db.begin txdb

/-- `CTxDB::TxnCommit`. -/
def txnCommit (txdb : RawTxDB) : RawTxDB := Db.commit txdb

end RawTxDB

/-- The state of a handle after `TxnBegin` and a sequence of writes and erases. -/
def inTxn (pdb : RawStore)
    (ops : List RawOp) : RawTxDB :=
  ops.foldl RawTxDB.perform (RawTxDB.txnBegin ⟨pdb, none⟩)

/-- The operation is on the key. -/
def names (key : RawBytes) : RawOp → Bool
  | .put k _ => k == key
  | .delete k => k == key

/-- The last operation on the key. -/
def lastOn (ops : List RawOp) (key : RawBytes) : Option RawOp :=
  ops.reverse.find? (names key)

/-- What `Read` should find: what was written last, nothing after an erase, and else what is
stored. -/
def expected (pdb : RawStore)
    (ops : List RawOp) (key : RawBytes) : Option RawBytes :=
  match lastOn ops key with
  | some (.put _ value) => some value
  | some (.delete _) => none
  | none => pdb.lookup key

variable {pdb : RawStore}
  {ops batch : List RawOp} {txdb : RawTxDB} {key : RawBytes}

/-! ### The scanner and the library -/

/-- What the scanner knows, in the terms of the library. -/
def CBatchScanner.found (scanner : CBatchScanner) : Option (Option RawBytes) :=
  if scanner.foundEntry then some (if scanner.deleted then none else some scanner.foundValue)
  else none

/-- A scanner that has found nothing has not met a deletion. -/
structure CBatchScanner.Knows (scanner : CBatchScanner) (key : RawBytes)
    (found : Option (Option RawBytes)) : Prop where
  needle : scanner.needle = key
  found : scanner.found = found
  fresh : scanner.foundEntry = false → scanner.deleted = false

theorem CBatchScanner.Knows.handle {scanner : CBatchScanner} {found : Option (Option RawBytes)}
    (h : scanner.Knows key found) (op : RawOp) :
    (scanner.handle op).Knows key (op.scan key found) := by
  obtain ⟨hn, hf, hd⟩ := h
  cases op with
  | put k value =>
    by_cases hk : k = key
    · subst hk
      simp only [CBatchScanner.handle, hn, Op.scan]
      exact ⟨rfl, rfl, fun hf => Bool.noConfusion hf⟩
    · simp only [CBatchScanner.handle, hn, if_neg hk, Op.scan, dif_neg hk]
      exact ⟨hn, hf, hd⟩
  | delete k =>
    by_cases hk : k = key
    · simp only [CBatchScanner.handle, hn, if_pos hk, Op.scan]
      exact ⟨rfl, rfl, fun hf => Bool.noConfusion hf⟩
    · simp only [CBatchScanner.handle, hn, if_neg hk, Op.scan]
      exact ⟨hn, hf, hd⟩

/-- **The scanner computes the last entry of the batch.** -/
theorem scanBatch_knows (batch : List RawOp) (key : RawBytes) :
    (RawTxDB.scanBatch batch key).Knows key (Store.scanBatch batch key) := by
  have hrun : ∀ (batch : List RawOp) (scanner : CBatchScanner)
      (found : Option (Option RawBytes)), scanner.Knows key found →
      (batch.foldl CBatchScanner.handle scanner).Knows key
        (batch.foldl (fun f (op : RawOp) => op.scan key f) found) := by
    intro batch
    induction batch with
    | nil => exact fun _ _ h => h
    | cons op batch ih => exact fun scanner found h => ih _ _ (h.handle op)
  exact hrun batch _ none ⟨rfl, rfl, fun _ => rfl⟩

/-- **`Read` finds what the handle reads.** -/
theorem find_eq_read (txdb : RawTxDB) (key : RawBytes) : txdb.find key = Db.read txdb key := by
  unfold RawTxDB.find Db.read
  cases txdb.activeBatch with
  | none => rfl
  | some batch =>
    have hk := scanBatch_knows batch key
    simp only
    rw [← hk.found, CBatchScanner.found]
    cases hf : (RawTxDB.scanBatch batch key).foundEntry with
    | false => simp [hk.fresh hf]
    | true => cases hd : (RawTxDB.scanBatch batch key).deleted <;> simp

/-- **`Exists` asks the database after a deletion in the batch.** -/
theorem exists_eq (txdb : RawTxDB) (key : RawBytes) :
    txdb.exists key = ((Db.read txdb key).isSome || (txdb.activeBatch.bind fun batch =>
      if Store.scanBatch batch key = some none then some (txdb.pdb.lookup key).isSome
      else none).getD false) := by
  unfold RawTxDB.exists Db.read
  cases txdb.activeBatch with
  | none => simp
  | some batch =>
    have hk := scanBatch_knows batch key
    simp only [bind_some]
    rw [← hk.found, CBatchScanner.found]
    cases hf : (RawTxDB.scanBatch batch key).foundEntry with
    | false => simp [hk.fresh hf]
    | true => cases hd : (RawTxDB.scanBatch batch key).deleted <;> simp

/-! ### A transaction -/

theorem inTxn_eq (pdb : RawStore) (ops : List RawOp) : inTxn pdb ops = ⟨pdb, some ops⟩ := by
  have hrun : ∀ (ops batch : List RawOp),
      ops.foldl RawTxDB.perform ⟨pdb, some batch⟩ = ⟨pdb, some (batch ++ ops)⟩ := by
    intro ops
    induction ops with
    | nil => exact fun batch => by rw [append_nil]; rfl
    | cons op ops ih =>
      intro batch
      rw [append_cons, ← ih]
      cases op <;> rfl
  exact hrun ops []

theorem lastOn_append (ops : List RawOp) (op : RawOp) (key : RawBytes) :
    lastOn (ops ++ [op]) key = if names key op then some op else lastOn ops key := by
  unfold lastOn
  rw [reverse_append, reverse_singleton, singleton_append, List.find?_cons]
  cases names key op <;> rfl

/-- The scan of the batch tells the last operation on the key. -/
theorem scanBatch_eq_lastOn (ops : List RawOp) (key : RawBytes) :
    Store.scanBatch ops key = (lastOn ops key).map fun
      | .put _ value => some value
      | .delete _ => none := by
  induction ops using List.reverseRecOn with
  | nil => rfl
  | append_singleton ops op ih =>
    rw [Store.scanBatch, foldl_append, ← Store.scanBatch, ih, lastOn_append]
    cases op with
    | put k value =>
      by_cases hk : k = key
      · subst hk; simp [Op.scan, names]
      · simp [Op.scan, names, hk]
    | delete k =>
      by_cases hk : k = key
      · simp [Op.scan, names, hk]
      · simp [Op.scan, names, hk]

/-- **`Read` finds what was written last**, and nothing after an erase. -/
theorem find_inTxn (pdb : RawStore) (ops : List RawOp) (key : RawBytes) :
    (inTxn pdb ops).find key = expected pdb ops key := by
  rw [find_eq_read, inTxn_eq, expected]
  simp only [Db.read]
  rw [scanBatch_eq_lastOn]
  cases lastOn ops key with
  | none => rfl
  | some op => cases op <;> rfl

theorem exists_inTxn (pdb : RawStore) (ops : List RawOp) (key : RawBytes) :
    (inTxn pdb ops).exists key = match lastOn ops key with
      | some (.put _ _) => true
      | _ => (pdb.lookup key).isSome := by
  rw [exists_eq, inTxn_eq]
  simp only [Db.read, bind_some]
  rw [scanBatch_eq_lastOn]
  cases lastOn ops key with
  | none => simp
  | some op => cases op <;> simp

theorem exists_eq_isSome_find {txdb : RawTxDB} (h : txdb.activeBatch = none) (key : RawBytes) :
    txdb.exists key = (txdb.find key).isSome := by
  simp [RawTxDB.exists, RawTxDB.find, h]

/-- What a transaction should show of a key. -/
structure ReadsAgree (pdb : RawStore) (ops : List RawOp) (key : RawBytes) : Prop where
  /-- `Read` answers what was written last, or not found after an erase. -/
  found : (inTxn pdb ops).find key = expected pdb ops key
  /-- `Read` answers as after the commit, for every type of value. -/
  read : ∀ {T : Type} (unserialize : RawBytes → Option T),
    (inTxn pdb ops).read unserialize key = (inTxn pdb ops).txnCommit.read unserialize key
  /-- `Exists` answers as after the commit. -/
  present : (inTxn pdb ops).exists key = (inTxn pdb ops).txnCommit.exists key
  /-- `Exists` is true exactly when `Read` would find the key. -/
  same : (inTxn pdb ops).exists key = ((inTxn pdb ops).find key).isSome

/-- **`Read` and `Exists` answer as after the commit exactly when the last operation on the key is
not an erase, or the key is not stored**. -/
theorem reads_agree_iff (pdb : RawStore) (ops : List RawOp) (key : RawBytes) :
    ReadsAgree pdb ops key ↔ ¬((pdb.lookup key).isSome ∧ lastOn ops key = some (.delete key)) := by
  have hcommit : (inTxn pdb ops).txnCommit.find key = (inTxn pdb ops).find key := by
    rw [find_eq_read, find_eq_read, RawTxDB.txnCommit, Db.read_commit]
  have hread : ∀ {T : Type} (unserialize : RawBytes → Option T),
      (inTxn pdb ops).read unserialize key = (inTxn pdb ops).txnCommit.read unserialize key :=
    fun unserialize => by rw [RawTxDB.read, RawTxDB.read, hcommit]
  have hexists : (inTxn pdb ops).txnCommit.exists key = ((inTxn pdb ops).find key).isSome :=
    (exists_eq_isSome_find rfl key).trans (by rw [hcommit])
  -- what remains is whether `Exists` agrees with what `Read` finds
  have hsame : (inTxn pdb ops).exists key = ((inTxn pdb ops).find key).isSome ↔
      ¬((pdb.lookup key).isSome ∧ lastOn ops key = some (.delete key)) := by
    rw [exists_inTxn, find_inTxn, expected]
    cases hl : lastOn ops key with
    | none => simp
    | some op =>
      cases op with
      | put k value => simp
      | delete k =>
        have hk : k = key := by
          simpa [names] using List.find?_some (show _ = some (Op.delete k) from hl)
        simp [hk]
  exact ⟨fun h => hsame.mp h.same, fun h =>
    ⟨find_inTxn pdb ops key, hread, (hsame.mpr h).trans hexists.symm, hsame.mpr h⟩⟩

/-- The claim of agreement fails: a stored key erased in the batch is still there for `Exists`. -/
theorem not_reads_agree : ¬ReadsAgree ((∅ : RawStore).insert [1] [2]) [.delete [1]] [1] :=
  fun h => Bool.noConfusion (show true = false from h.same)

end Espers
