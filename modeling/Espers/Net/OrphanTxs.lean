import Espers.Chain.Offer
import Espers.Chain.Simnet
import Espers.Lib.Inverted

/-!
# Orphan transactions

A transaction whose parents are not known is kept under its own hash in `mapOrphanTransactions`, and
its hash in the set that `mapOrphanTransactionsByPrev` has for each of its parents.  A transaction
that is accepted is followed by the orphans that waited for it, and by those that waited for them.

* `OrphanTxs.Inv` : the second map is the index of the first by parents.
* `processTx_spec` : **a message is handled to its end**, and what it has put into the memory pool
  is no orphan any more.
-/

namespace Espers

open Exec Inverted List Nat AList

/-- `MAX_ORPHAN_TRANSACTIONS`, a hundredth of the initial `MAX_BLOCK_SIZE`. -/
def maxOrphanTransactions : ℕ := 15000000 / 100

/-- The orphan transactions. -/
structure OrphanTxs where
  mapOrphanTransactions : AList fun _ : Uint256 => CTransaction
  mapOrphanTransactionsByPrev : AList fun _ : Uint256 => List Uint256

/-- The parents of a transaction. -/
def CTransaction.parents (tx : CTransaction) : List Uint256 := tx.vin.map fun txin =>
    txin.prevout.hash

namespace OrphanTxs

/-- No orphan yet. -/
def empty : OrphanTxs := ⟨∅, ∅⟩

/-- `mapOrphanTransactions.size()`. -/
def size (o : OrphanTxs) : ℕ := o.mapOrphanTransactions.keys.length

/-- An orphan has this hash. -/
def stored (o : OrphanTxs) (hash : Uint256) : Bool := (o.mapOrphanTransactions.lookup hash).isSome

/-- `AddOrphanTx`. -/
def addOrphanTx (E : Env) (tx : CTransaction) (o : OrphanTxs) : OrphanTxs × Bool :=
  let hash := E.txHash tx
  if o.stored hash then (o, false)
  -- Ignore big transactions
  else if tx.getSerializeSize > 5000 then (o, false)
  else
    ({ mapOrphanTransactions := o.mapOrphanTransactions.insert hash tx
       mapOrphanTransactionsByPrev :=
        tx.parents.foldl (enter (· < ·) hash) o.mapOrphanTransactionsByPrev }, true)

/-- `EraseOrphanTx`. -/
def eraseOrphanTx (hash : Uint256) (o : OrphanTxs) : OrphanTxs :=
  match o.mapOrphanTransactions.lookup hash with
  | none => o
  | some tx =>
    { mapOrphanTransactions := o.mapOrphanTransactions.erase hash
      mapOrphanTransactionsByPrev := tx.parents.foldl (leave hash) o.mapOrphanTransactionsByPrev }

/-- `mapOrphanTransactions.lower_bound(randomhash)`, or `begin()` at the end of the map. -/
def lowerBound (o : OrphanTxs) (randomhash : Uint256) : Option Uint256 :=
  let keys := o.mapOrphanTransactions.keys.insertionSort (· ≤ ·)
  (keys.find? fun key => ¬ key < randomhash).or keys.head?

/-- The loop of `LimitOrphanTxSize`; `none` when it does not end. -/
def evict (nMaxOrphans : ℕ) (rand : ℕ → Uint256) : ℕ → ℕ → OrphanTxs → Option (OrphanTxs × ℕ)
  | 0, nEvicted, o => if o.size ≤ nMaxOrphans then some (o, nEvicted) else none
  | fuel + 1, nEvicted, o =>
    if o.size ≤ nMaxOrphans then some (o, nEvicted)
    else do
      -- Evict a random orphan
      let hash ← o.lowerBound (rand nEvicted)
      evict nMaxOrphans rand fuel (nEvicted + 1) (o.eraseOrphanTx hash)

/-- `LimitOrphanTxSize`, with the values of `GetRandHash()`; the orphans that are left and the
number of those evicted. -/
def limitOrphanTxSize (nMaxOrphans : ℕ) (rand : ℕ → Uint256) (o : OrphanTxs) :
    Option (OrphanTxs × ℕ) :=
  evict nMaxOrphans rand o.size 0 o

end OrphanTxs

/-! ### The message -/

/-- The globals and the orphan transactions. -/
structure OrphanTxNode where
  world : World
  orphans : OrphanTxs

/-- What the handling of a message depends on beside the globals. -/
structure TxArrival where
  /-- What `AcceptToMemoryPool` of the transaction depends on. -/
  ctx : Ctx
  /-- What `AcceptToMemoryPool` of an orphan depends on, in a turn of the loop over `vWorkQueue`. -/
  orphanCtx : ℕ → Uint256 → Ctx
  /-- The values of `GetRandHash()`. -/
  rand : ℕ → Uint256

/-- `AlreadyHave` of a transaction. -/
def OrphanTxNode.alreadyHave (s : OrphanTxNode) (hash : Uint256) : Bool :=
  s.world.mempool.contains hash || s.orphans.stored hash || s.world.txdb.containsTx hash

/-- `AcceptToMemoryPool`: the answer, and `fMissingInputs`. -/
def offer (E : Env) (ctx : Ctx) (tx : CTransaction) : EStateM Stop OrphanTxNode (Bool × Bool) := do
  let s ← get
  let accepted ← focus OrphanTxNode.world (fun w s => { s with world := w })
    (returned (acceptToMemoryPool E ctx tx true))
  pure (accepted, fMissingInputs E ctx s.world tx)

/-- `mapOrphanTransactions[hash]`, which adds an empty transaction if there is none. -/
def subscript (ctx : Ctx) (hash : Uint256) : EStateM Stop OrphanTxNode CTransaction := do
  let s ← get
  match s.orphans.mapOrphanTransactions.lookup hash with
  | some tx => pure tx
  | none => do
    let tx : CTransaction := ⟨1, ctx.getAdjustedTime.toNat, [], [], 0⟩
    set { s with orphans := { s.orphans with
      mapOrphanTransactions := s.orphans.mapOrphanTransactions.insert hash tx } }
    pure tx

/-- The loop over the orphans that wait for one transaction; what it adds to `vWorkQueue` and to
`vEraseQueue`. -/
def tryOrphans (E : Env) (a : TxArrival) (i : ℕ) :
    List Uint256 → EStateM Stop OrphanTxNode (List Uint256 × List Uint256)
  | [] => pure ([], [])
  | orphanTxHash :: rest => do
    let ctx := a.orphanCtx i orphanTxHash
    let orphanTx ← subscript ctx orphanTxHash
    let (accepted, fMissingInputs2) ← offer E ctx orphanTx
    let (vWorkQueue, vEraseQueue) ← tryOrphans E a i rest
    pure <|
      if accepted then (orphanTxHash :: vWorkQueue, orphanTxHash :: vEraseQueue)
      -- invalid or too-little-fee orphan
      else if !fMissingInputs2 then (vWorkQueue, orphanTxHash :: vEraseQueue)
      else (vWorkQueue, vEraseQueue)

/-- The loop over `vWorkQueue` from the position `i` on; the orphans that were relayed, and what is
added to `vEraseQueue`.  The answer is `none` when it does not end. -/
def resolveOrphans (E : Env) (a : TxArrival) :
    ℕ → ℕ → List Uint256 → EStateM Stop OrphanTxNode (Option (List Uint256 × List Uint256))
  | _, _, [] => pure (some ([], []))
  | 0, _, _ :: _ => pure none
  | fuel + 1, i, hash :: vWorkQueue => do
    let s ← get
    let (accepted, vEraseQueue) ← tryOrphans E a i
      ((s.orphans.mapOrphanTransactionsByPrev.lookup hash).getD [])
    let rest ← resolveOrphans E a fuel (i + 1) (vWorkQueue ++ accepted)
    pure (rest.map fun r => (accepted ++ r.1, vEraseQueue ++ r.2))

/-- What has become of a transaction. -/
inductive TxProcessed where
  | alreadyHave
  /-- It was accepted; the transactions that were relayed. -/
  | accepted (relayed : List Uint256)
  /-- Its inputs are missing; the answer of `AddOrphanTx`, and the number of orphans evicted. -/
  | orphan (added : Bool) (nEvicted : ℕ)
  | refused

/-- The message `tx`. -/
def processTx (E : Env) (a : TxArrival) (tx : CTransaction) :
    EStateM Stop OrphanTxNode TxProcessed := do
  let hash := E.txHash tx
  let s ← get
  if s.alreadyHave hash then pure .alreadyHave
  else do
    let (accepted, fMissingInputs) ← offer E a.ctx tx
    let s ← get
    if accepted then do
      -- Recursively process any orphan transactions that depended on this one
      match ← resolveOrphans E a (s.orphans.size + 1) 0 [hash] with
      | none => throw (.crash "ProcessMessage() : the loop does not end")
      | some (relayed, vEraseQueue) => do
        modify fun s => { s with
          orphans := (hash :: vEraseQueue).foldl (fun o hash => o.eraseOrphanTx hash) s.orphans }
        pure (.accepted (hash :: relayed))
    else if fMissingInputs then
      let (o, added) := s.orphans.addOrphanTx E tx
      match o.limitOrphanTxSize maxOrphanTransactions a.rand with
      | none => throw (.crash "LimitOrphanTxSize() : the loop does not end")
      | some (o, nEvicted) => do
        set { s with orphans := o }
        pure (.orphan added nEvicted)
    else pure .refused

/-! ### The two maps -/

namespace OrphanTxs

variable {E : Env} {o o' : OrphanTxs} {hash hash' : Uint256} {tx : CTransaction}

/-- An orphan is stored under its own hash, and `mapOrphanTransactionsByPrev` is the index of the
orphans by parents. -/
structure Inv (E : Env) (o : OrphanTxs) : Prop where
  key : ∀ hash tx, o.mapOrphanTransactions.lookup hash = some tx → E.txHash tx = hash
  sets : Inverted.Sets o.mapOrphanTransactionsByPrev
  lists : ∀ p hash, Inverted.Lists o.mapOrphanTransactionsByPrev p hash ↔
    ∃ tx, o.mapOrphanTransactions.lookup hash = some tx ∧ p ∈ tx.parents

theorem stored_iff : o.stored hash = true ↔ hash ∈ o.mapOrphanTransactions.keys := by
  rw [stored, AList.lookup_isSome, AList.mem_keys]

theorem stored_of_lookup (h : o.mapOrphanTransactions.lookup hash = some tx) :
    o.stored hash = true := by
  rw [stored, h]
  rfl

theorem not_stored_iff : ¬ o.stored hash = true ↔ o.mapOrphanTransactions.lookup hash = none := by
  simp [stored]

theorem Inv.empty : empty.Inv E := by
  refine ⟨by simp [OrphanTxs.empty], .empty, fun p hash => ?_⟩
  simp [OrphanTxs.empty, Inverted.Lists]

theorem addOrphanTx_cases (E : Env) (tx : CTransaction) (o : OrphanTxs) :
    o.addOrphanTx E tx = (o, false) ∨
      o.mapOrphanTransactions.lookup (E.txHash tx) = none ∧ o.addOrphanTx E tx =
        ({ mapOrphanTransactions := o.mapOrphanTransactions.insert (E.txHash tx) tx
           mapOrphanTransactionsByPrev :=
            tx.parents.foldl (enter (· < ·) (E.txHash tx)) o.mapOrphanTransactionsByPrev },
              true) := by
  unfold addOrphanTx
  by_cases hstored : o.stored (E.txHash tx) = true
  · rw [if_pos hstored]
    exact .inl rfl
  by_cases hsize : tx.getSerializeSize > 5000
  · rw [if_neg hstored, if_pos hsize]
    exact .inl rfl
  · rw [if_neg hstored, if_neg hsize]
    exact .inr ⟨not_stored_iff.1 hstored, rfl⟩

theorem addOrphanTx_of_new (hnew : o.stored (E.txHash tx) = false)
    (hsize : tx.getSerializeSize ≤ 5000) : (o.addOrphanTx E tx).1.mapOrphanTransactions.keys =
      E.txHash tx :: o.mapOrphanTransactions.keys := by
  have hmem : E.txHash tx ∉ o.mapOrphanTransactions.keys := by
    rw [← stored_iff, hnew]
    decide
  unfold addOrphanTx
  rw [if_neg (by rw [hnew]; decide), if_neg (not_lt.2 hsize)]
  exact (keys_insert _).trans (by rw [erase_of_not_mem hmem])

theorem Inv.addOrphanTx (hi : o.Inv E) (tx : CTransaction) : (o.addOrphanTx E tx).1.Inv E := by
  rcases addOrphanTx_cases E tx o with h | ⟨hnew, h⟩
  · rw [h]
    exact hi
  rw [h]
  refine ⟨?_, hi.sets.foldl_enter, fun p hash => ?_⟩
  · intro hash tx' hl
    by_cases heq : hash = E.txHash tx
    · subst heq
      rw [lookup_insert] at hl
      cases hl
      rfl
    · rw [lookup_insert_ne heq] at hl
      exact hi.key hash tx' hl
  · rw [lists_foldl_enter, hi.lists]
    by_cases heq : hash = E.txHash tx
    · subst heq
      rw [lookup_insert, hnew]
      simp
    · rw [lookup_insert_ne heq]
      simp [heq]

theorem addOrphanTx_stored (h : (o.addOrphanTx E tx).1.stored hash = true) :
    hash = E.txHash tx ∨ o.stored hash = true := by
  rcases addOrphanTx_cases E tx o with h' | ⟨-, h'⟩
  · rw [h'] at h
    exact .inr h
  · rw [h', stored_iff, keys_insert, mem_cons] at h
    exact h.imp_right fun h => stored_iff.2 (mem_of_mem_erase h)

theorem Inv.eraseOrphanTx (hi : o.Inv E) (hash : Uint256) : (o.eraseOrphanTx hash).Inv E := by
  unfold OrphanTxs.eraseOrphanTx
  cases hl : o.mapOrphanTransactions.lookup hash with
  | none => exact hi
  | some tx =>
    refine ⟨?_, hi.sets.foldl_leave, fun p hash' => ?_⟩
    · exact fun hash' tx' hl' => hi.key hash' tx' (Store.lookup_of_erase hl')
    · rw [lists_foldl_leave hi.sets, hi.lists]
      by_cases heq : hash' = hash
      · subst heq
        rw [lookup_erase, hl]
        simp
      · rw [lookup_erase_ne heq]
        simp [heq]

theorem eraseOrphanTx_stored :
    (o.eraseOrphanTx hash).stored hash' = true ↔ hash' ≠ hash ∧ o.stored hash' = true := by
  unfold eraseOrphanTx
  cases hl : o.mapOrphanTransactions.lookup hash with
  | none =>
    refine ⟨fun h => ⟨?_, h⟩, And.right⟩
    rintro rfl
    exact not_stored_iff.2 hl h
  | some tx =>
    rw [stored_iff, stored_iff, keys_erase, o.mapOrphanTransactions.keys_nodup.mem_erase_iff]

theorem eraseOrphanTx_size : (o.eraseOrphanTx hash).size ≤ o.size := by
  unfold eraseOrphanTx
  split
  · exact le_rfl
  · rw [size, keys_erase]
    exact length_erase_le

theorem eraseOrphanTx_size_of_stored (h : o.stored hash = true) :
    (o.eraseOrphanTx hash).size + 1 = o.size := by
  obtain ⟨tx, hl⟩ := Option.isSome_iff_exists.1 h
  have hmem := stored_iff.1 h
  have hpos := length_pos_of_mem hmem
  simp only [eraseOrphanTx, hl, size, keys_erase]
  rw [length_erase_of_mem hmem]
  omega

theorem foldl_eraseOrphanTx (hi : o.Inv E) (hashes : List Uint256) :
    (hashes.foldl (fun o hash => o.eraseOrphanTx hash) o).Inv E ∧
      (hashes.foldl (fun o hash => o.eraseOrphanTx hash) o).size ≤ o.size ∧
      ∀ hash, (hashes.foldl (fun o hash => o.eraseOrphanTx hash) o).stored hash = true ↔
        hash ∉ hashes ∧ o.stored hash = true := by
  induction hashes generalizing o with
  | nil => exact ⟨hi, le_rfl, fun hash => by simp⟩
  | cons hash' hashes ih =>
    obtain ⟨h1, h2, h3⟩ := ih (hi.eraseOrphanTx hash')
    refine ⟨h1, h2.trans eraseOrphanTx_size, fun hash => ?_⟩
    rw [foldl_cons, h3, eraseOrphanTx_stored, mem_cons, not_or, ← and_assoc]
    exact and_congr_left fun _ => and_comm

theorem lowerBound_isSome (h : 0 < o.size) (randomhash : Uint256) :
    ∃ hash, o.lowerBound randomhash = some hash ∧ o.stored hash = true := by
  have hperm := perm_insertionSort (· ≤ ·) o.mapOrphanTransactions.keys
  unfold lowerBound
  cases hfind : (o.mapOrphanTransactions.keys.insertionSort (· ≤ ·)).find?
      fun key => ¬ key < randomhash with
  | some hash =>
    refine ⟨hash, ?_, stored_iff.2 (hperm.mem_iff.1 (mem_of_find?_eq_some hfind))⟩
    simp only [hfind, Option.some_or]
  | none =>
    -- no key is large enough: the first one
    cases hsorted : o.mapOrphanTransactions.keys.insertionSort (· ≤ ·) with
    | nil =>
      have hlen := hperm.length_eq
      rw [hsorted, length_nil] at hlen
      unfold size at h
      omega
    | cons hash keys =>
      rw [hsorted] at hfind hperm
      refine ⟨hash, ?_, stored_iff.2 (hperm.mem_iff.1 mem_cons_self)⟩
      simp only [hfind, Option.none_or, head?_cons]

/-- **The loop of `LimitOrphanTxSize` ends** with no more orphans than allowed, whatever the random
numbers are. -/
theorem evict_spec {nMaxOrphans : ℕ} {rand : ℕ → Uint256} {fuel : ℕ} (nEvicted : ℕ) (hi : o.Inv E)
    (hfuel : o.size ≤ nMaxOrphans + fuel) :
    ∃ o' n, evict nMaxOrphans rand fuel nEvicted o = some (o', n) ∧ o'.Inv E ∧
      o'.size ≤ nMaxOrphans ∧ o'.size ≤ o.size ∧ ∀ hash, o'.stored hash = true →
      o.stored hash = true := by
  induction fuel generalizing o nEvicted with
  | zero =>
    refine ⟨o, nEvicted, ?_, hi, by omega, le_rfl, fun _ h => h⟩
    rw [evict, if_pos (by omega)]
  | succ fuel ih =>
    by_cases hfew : o.size ≤ nMaxOrphans
    · refine ⟨o, nEvicted, ?_, hi, hfew, le_rfl, fun _ h => h⟩
      rw [evict, if_pos hfew]
    obtain ⟨hash, hbound, hstored⟩ := lowerBound_isSome (o := o) (by omega) (rand nEvicted)
    have hsize := eraseOrphanTx_size_of_stored hstored
    obtain ⟨o', n, h1, h2, h3, h4, h5⟩ := ih (nEvicted + 1)
      (hi.eraseOrphanTx hash) (by omega)
    refine ⟨o', n, ?_, h2, h3, by omega, fun hash' h => (eraseOrphanTx_stored.1 (h5 hash' h)).2⟩
    rw [evict, if_neg hfew, hbound]
    exact h1

theorem limitOrphanTxSize_spec (hi : o.Inv E) (nMaxOrphans : ℕ) (rand : ℕ → Uint256) :
    ∃ o' n, o.limitOrphanTxSize nMaxOrphans rand = some (o', n) ∧ o'.Inv E ∧
      o'.size ≤ nMaxOrphans ∧ o'.size ≤ o.size ∧ ∀ hash, o'.stored hash = true →
      o.stored hash = true :=
  evict_spec 0 hi (le_add_left _ _)

end OrphanTxs

/-! ### The cascade -/

variable {E : Env} {a : TxArrival} {tx : CTransaction} {s s' : OrphanTxNode} {hash : Uint256}

/-- `AcceptToMemoryPool` answers, and a transaction it accepts is new in the pool. -/
theorem offer_spec (E : Env) (ctx : Ctx) (tx : CTransaction) (s : OrphanTxNode) :
    ∃ accepted fMissing w', offer E ctx tx s = .ok (accepted, fMissing) ⟨w', s.orphans⟩ ∧
      (accepted = false ∧ w' = s.world ∨
        accepted = true ∧ s.world.mempool.contains (E.txHash tx) = false ∧
          ∀ hash, w'.mempool.contains hash = true ↔
            hash = E.txHash tx ∨ s.world.mempool.contains hash = true) := by
  cases hcheck : checkAccept E ctx s.world tx true with
  | error e =>
    have he := checkAccept_answers E ctx s.world tx true e hcheck
    have hstop : acceptToMemoryPool E ctx tx true s.world = .error e s.world := by
      rw [acceptToMemoryPool, get_bind_apply, hcheck]
      rfl
    have hfalse : returned (acceptToMemoryPool E ctx tx true) s.world = .ok false s.world :=
      attempt_eq_false.2 ⟨e, hstop, he⟩
    refine ⟨false, fMissingInputs E ctx s.world tx, s.world, ?_, .inl ⟨rfl, rfl⟩⟩
    rw [offer, get_bind_apply, bind_of_ok (focus_eq_ok.2 ⟨_, hfalse, rfl⟩)]
    rfl
  | ok u =>
    have hnew := (checkAccept_pool hcheck).2.1
    obtain ⟨w', hend, hadded⟩ : ∃ w', acceptToMemoryPool E ctx tx true s.world = .ok () w' ∧
        w'.mempool = s.world.mempool.addUnchecked (E.txHash tx) tx := by
      rw [acceptToMemoryPool, get_bind_apply, hcheck]
      exact ⟨_, rfl, rfl⟩
    have htrue : returned (acceptToMemoryPool E ctx tx true) s.world = .ok true w' :=
      attempt_eq_true.2 ⟨(), hend⟩
    refine ⟨true, fMissingInputs E ctx s.world tx, w', ?_, .inr ⟨rfl, ?_, fun hash => ?_⟩⟩
    · rw [offer, get_bind_apply, bind_of_ok (focus_eq_ok.2 ⟨_, htrue, rfl⟩)]
      rfl
    · rw [CTxMemPool.contains, hnew]
      rfl
    · rw [hadded]
      simp only [CTxMemPool.contains, CTxMemPool.addUnchecked, lookup_isSome, mem_insert]

/-- The orphans that are not in the memory pool. -/
def waiting (w : World) (o : OrphanTxs) : ℕ :=
  (o.mapOrphanTransactions.keys.filter fun hash => !w.mempool.contains hash).length

theorem waiting_lt {w w' : World} {o : OrphanTxs} (hstored : o.stored hash = true)
    (hnew : w.mempool.contains hash = false)
    (hpool : ∀ h, w'.mempool.contains h = true ↔ h = hash ∨ w.mempool.contains h = true) :
    waiting w' o < waiting w o := by
  have hfilter : (o.mapOrphanTransactions.keys.filter fun h => !w'.mempool.contains h) =
      (o.mapOrphanTransactions.keys.filter fun h => !w.mempool.contains h).filter (· ≠ hash) := by
    rw [filter_filter]
    refine filter_congr fun h _ => ?_
    rw [Bool.eq_iff_iff]
    simp [← Bool.not_eq_true, hpool]
  unfold waiting
  rw [hfilter, length_filter_lt_length_iff_exists]
  exact ⟨hash, mem_filter.2 ⟨OrphanTxs.stored_iff.1 hstored, by simp [hnew]⟩, by simp⟩

theorem subscript_of_lookup (ctx : Ctx)
    (h : s.orphans.mapOrphanTransactions.lookup hash = some tx) :
    subscript ctx hash s = .ok tx s := by
  rw [subscript, get_bind_apply, h]
  rfl

/-- **The loop over the orphans that wait for one transaction** ends; those that it adds to
`vWorkQueue` are the ones that have entered the pool, and are to be erased. -/
theorem tryOrphans_spec {l : List Uint256} {i : ℕ} (hi : s.orphans.Inv E)
    (hl : ∀ hash ∈ l, s.orphans.stored hash = true) :
    ∃ work erase w', tryOrphans E a i l s = .ok (work, erase) ⟨w', s.orphans⟩ ∧ work ⊆ erase ∧
      (∀ hash, w'.mempool.contains hash = true ↔
        hash ∈ work ∨ s.world.mempool.contains hash = true) ∧
      work.length + waiting w' s.orphans ≤ waiting s.world s.orphans := by
  induction l generalizing s with
  | nil => exact ⟨[], [], s.world, rfl, List.Subset.refl _, by simp, by simp⟩
  | cons hash l ih =>
    rw [forall_mem_cons] at hl
    obtain ⟨tx, hlookup⟩ := Option.isSome_iff_exists.1 hl.1
    have hkey := hi.key hash tx hlookup
    obtain ⟨accepted, fMissing, w1, hoffer, hpool⟩ := offer_spec E (a.orphanCtx i hash) tx s
    have hi1 : (⟨w1, s.orphans⟩ : OrphanTxNode).orphans.Inv E := hi
    obtain ⟨work, erase, w', hrest, hsub, hcontains, hless⟩ := ih hi1 hl.2
    have hrun : tryOrphans E a i (hash :: l) s = .ok
        (if accepted then (hash :: work, hash :: erase)
        else if !fMissing then (work, hash :: erase) else (work, erase)) ⟨w', s.orphans⟩ := by
      rw [tryOrphans, bind_of_ok (subscript_of_lookup _ hlookup), bind_of_ok hoffer]
      exact (bind_of_ok hrest).trans rfl
    rcases hpool with ⟨rfl, rfl⟩ | ⟨rfl, hnew, hadded⟩
    · -- refused: the orphan stays, or goes with those to be erased
      cases fMissing with
      | true => exact ⟨work, erase, w', hrun, hsub, hcontains, hless⟩
      | false =>
        exact ⟨work, hash :: erase, w', hrun, fun h hh => mem_cons_of_mem _ (hsub hh),
          hcontains, hless⟩
    · rw [hkey] at hnew hadded
      have hlt := waiting_lt hl.1 hnew hadded
      refine ⟨hash :: work, hash :: erase, w', hrun, cons_subset_cons _ hsub, fun h => ?_, ?_⟩
      · rw [hcontains, mem_cons, hadded]
        grind
      · rw [length_cons]
        simp only at hless
        omega

/-- **The loop over `vWorkQueue` ends**, and all that has entered the pool is to be erased. -/
theorem resolveOrphans_spec {fuel : ℕ} (i : ℕ) {q : List Uint256} (hi : s.orphans.Inv E)
    (hfuel : q.length + waiting s.world s.orphans ≤ fuel) :
    ∃ relayed erase w', resolveOrphans E a fuel i q s = .ok (some (relayed, erase))
    ⟨w', s.orphans⟩ ∧ relayed ⊆ erase ∧ ∀ hash, w'.mempool.contains hash = true ↔
        hash ∈ relayed ∨ s.world.mempool.contains hash = true := by
  induction fuel generalizing i q s with
  | zero =>
    obtain rfl : q = [] := eq_nil_of_length_eq_zero (by omega)
    exact ⟨[], [], s.world, rfl, List.Subset.refl _, by simp⟩
  | succ fuel ih =>
    cases q with
    | nil => exact ⟨[], [], s.world, rfl, List.Subset.refl _, by simp⟩
    | cons hash q =>
      -- the index lists stored orphans only
      have hstored : ∀ h ∈ (s.orphans.mapOrphanTransactionsByPrev.lookup hash).getD [],
          s.orphans.stored h = true := by
        intro h hh
        obtain ⟨tx, hl, -⟩ := (hi.lists hash h).1 (mem_getD_lookup.1 hh)
        exact OrphanTxs.stored_of_lookup hl
      obtain ⟨work, erase, w1, htry, hsub, hcontains, hless⟩ :=
        tryOrphans_spec (a := a) (i := i) hi hstored
      have hi1 : (⟨w1, s.orphans⟩ : OrphanTxNode).orphans.Inv E := hi
      have hfuel1 : (q ++ work).length + waiting w1 s.orphans ≤ fuel := by
        rw [length_append]
        rw [length_cons] at hfuel
        omega
      obtain ⟨relayed, erase', w', hrest, hsub', hcontains'⟩ := ih (i + 1) hi1 hfuel1
      refine ⟨work ++ relayed, erase ++ erase', w', ?_, ?_, fun h => ?_⟩
      · rw [resolveOrphans, get_bind_apply, bind_of_ok htry]
        exact (bind_of_ok hrest).trans rfl
      · exact append_subset.2 ⟨fun h hh => mem_append_left _ (hsub hh),
          fun h hh => mem_append_right _ (hsub' hh)⟩
      · rw [hcontains', mem_append, hcontains]
        grind

/-! ### A message -/

/-- What a message leaves behind. -/
structure TxHandled (E : Env) (tx : CTransaction) (s s' : OrphanTxNode) : Prop where
  inv : s'.orphans.Inv E
  size : s'.orphans.size ≤ max maxOrphanTransactions s.orphans.size
  /-- What has entered the memory pool is no orphan. -/
  entered : ∀ hash, s'.world.mempool.contains hash = true →
    s.world.mempool.contains hash = false → s'.orphans.stored hash = false
  /-- What has become an orphan is the transaction of the message, and not in the memory pool. -/
  kept : ∀ hash, s'.orphans.stored hash = true → s.orphans.stored hash = false →
    s'.world.mempool.contains hash = false

theorem waiting_le (w : World) (o : OrphanTxs) : waiting w o ≤ o.size := length_filter_le _ _

/-- **A message is handled to its end.** -/
theorem processTx_spec (a : TxArrival) (tx : CTransaction) (hi : s.orphans.Inv E) :
    ∃ r s', processTx E a tx s = .ok r s' ∧ TxHandled E tx s s' := by
  have hsame : TxHandled E tx s s := by
    refine ⟨hi, le_max_right _ _, fun hash h1 h2 => ?_, fun hash h1 h2 => ?_⟩
    · rw [h1] at h2
      cases h2
    · rw [h1] at h2
      cases h2
  by_cases hhave : s.alreadyHave (E.txHash tx) = true
  · refine ⟨.alreadyHave, s, ?_, hsame⟩
    rw [processTx, get_bind_apply, if_pos hhave]
    rfl
  obtain ⟨accepted, fMissing, w1, hoffer, hpool⟩ := offer_spec E a.ctx tx s
  have hnew : s.world.mempool.contains (E.txHash tx) = false ∧
    s.orphans.stored (E.txHash tx) = false := by
    simp only [OrphanTxNode.alreadyHave, Bool.or_eq_true, not_or, Bool.not_eq_true] at hhave
    exact hhave.1
  rcases hpool with ⟨rfl, rfl⟩ | ⟨rfl, -, hadded⟩
  · cases fMissing with
    | false =>
      refine ⟨.refused, s, ?_, hsame⟩
      rw [processTx, get_bind_apply, if_neg hhave, bind_of_ok hoffer]
      rfl
    | true =>
      -- the transaction becomes an orphan, and others may be evicted
      obtain ⟨o, n, hlimit, hi', hmax, -, hstored⟩ := OrphanTxs.limitOrphanTxSize_spec
        (hi.addOrphanTx tx) maxOrphanTransactions a.rand
      have hmem : ∀ hash, o.stored hash = true → s.orphans.stored hash = false →
        hash = E.txHash tx := by
        intro hash h1 h2
        refine (OrphanTxs.addOrphanTx_stored (hstored hash h1)).resolve_right fun h3 => ?_
        rw [h2] at h3
        cases h3
      refine ⟨.orphan (s.orphans.addOrphanTx E tx).2 n, ⟨s.world, o⟩, ?_, hi',
        hmax.trans (le_max_left _ _), fun hash h1 h2 => ?_, fun hash h1 h2 => ?_⟩
      · rw [processTx, get_bind_apply, if_neg hhave, bind_of_ok hoffer]
        simp only [get_bind_apply, hlimit]
        rfl
      · rw [h1] at h2
        cases h2
      · rw [hmem hash h1 h2]
        exact hnew.1
  · -- the orphans that waited for the transaction are tried, and those that are done with are erased
    have hi1 : (⟨w1, s.orphans⟩ : OrphanTxNode).orphans.Inv E := hi
    have hle := waiting_le w1 s.orphans
    have hfuel : [E.txHash tx].length + waiting w1 s.orphans ≤ s.orphans.size + 1 := by
      rw [length_singleton, add_comm]
      exact succ_le_succ hle
    obtain ⟨relayed, erase, w', hresolve, hsub, hcontains⟩ :=
      resolveOrphans_spec (a := a) 0 hi1 hfuel
    obtain ⟨hi', hsize, hstored⟩ := OrphanTxs.foldl_eraseOrphanTx hi (E.txHash tx :: erase)
    generalize herase :
      (E.txHash tx :: erase).foldl (fun o hash => o.eraseOrphanTx hash) s.orphans =
      o at hi' hsize hstored
    refine ⟨.accepted (E.txHash tx :: relayed), ⟨w', o⟩, ?_, hi', hsize.trans (le_max_right _ _),
      fun hash h1 h2 => ?_, fun hash h1 h2 => ?_⟩
    · rw [processTx, get_bind_apply, if_neg hhave, bind_of_ok hoffer, ← herase]
      exact (bind_of_ok hresolve).trans rfl
    · rw [Bool.eq_false_iff, ne_eq, hstored, mem_cons]
      rintro ⟨hnot, -⟩
      rw [hcontains, hadded, h2] at h1
      simp only [Bool.false_eq_true, or_false] at h1
      rcases h1 with h1 | h1
      · exact hnot (.inr (hsub h1))
      · exact hnot (.inl h1)
    · rw [hstored, h2] at h1
      exact absurd h1.2 (by decide)

/-! ### Runs -/

/-- The states a node goes through from a state without orphan transactions on, in messages and in
calls of `AddOrphanTx`, `EraseOrphanTx` and `LimitOrphanTxSize` from elsewhere; the list has the
transactions that were given to `AddOrphanTx` from elsewhere. -/
inductive OrphanTxRun (E : Env) : List CTransaction → OrphanTxNode → Prop
  | start (w : World) : OrphanTxRun E [] ⟨w, .empty⟩
  | message {added : List CTransaction} {s s' : OrphanTxNode} {a : TxArrival} {tx : CTransaction}
      {r : TxProcessed} : OrphanTxRun E added s → processTx E a tx s = .ok r s' →
      OrphanTxRun E added s'
  | addOrphanTx {added : List CTransaction} {s : OrphanTxNode} (tx : CTransaction) :
      OrphanTxRun E added s →
      OrphanTxRun E (tx :: added) ⟨s.world, (s.orphans.addOrphanTx E tx).1⟩
  | eraseOrphanTx {added : List CTransaction} {s : OrphanTxNode} (hash : Uint256) :
      OrphanTxRun E added s → OrphanTxRun E added ⟨s.world, s.orphans.eraseOrphanTx hash⟩
  | limitOrphanTxSize {added : List CTransaction} {s : OrphanTxNode} {nMaxOrphans nEvicted : ℕ}
      {rand : ℕ → Uint256} {o : OrphanTxs} : OrphanTxRun E added s →
      s.orphans.limitOrphanTxSize nMaxOrphans rand = some (o, nEvicted) →
      OrphanTxRun E added ⟨s.world, o⟩

/-- What holds between two steps. -/
structure OrphanTxNode.Inv (E : Env) (added : List CTransaction) (s : OrphanTxNode) : Prop where
  orphans : s.orphans.Inv E
  size : added = [] → s.orphans.size ≤ maxOrphanTransactions
  apart : ∀ hash, s.world.mempool.contains hash = true → s.orphans.stored hash = true →
    ∃ tx ∈ added, E.txHash tx = hash

theorem OrphanTxRun.inv {added : List CTransaction} (h : OrphanTxRun E added s) :
    s.Inv E added := by
  induction h with
  | start w => exact ⟨.empty, fun _ => zero_le _, fun hash _ h => by cases h⟩
  | @message added s s' a tx r _ hmsg ih =>
    obtain ⟨r', s'', hrun, hs⟩ := processTx_spec a tx ih.orphans
    rw [hmsg] at hrun
    cases hrun
    refine ⟨hs.inv, fun hadded => hs.size.trans (max_le le_rfl (ih.size hadded)),
      fun hash h1 h2 => ?_⟩
    cases h3 : s.orphans.stored hash with
    | false =>
      rw [hs.kept hash h2 h3] at h1
      cases h1
    | true =>
      cases h4 : s.world.mempool.contains hash with
      | false =>
        rw [hs.entered hash h1 h4] at h2
        cases h2
      | true => exact ih.apart hash h4 h3
  | addOrphanTx tx _ ih =>
    refine ⟨ih.orphans.addOrphanTx tx, fun hadded => (nomatch hadded), fun hash h1 h2 => ?_⟩
    rcases OrphanTxs.addOrphanTx_stored h2 with rfl | h3
    · exact ⟨tx, mem_cons_self, rfl⟩
    · obtain ⟨tx', hmem, hhash⟩ := ih.apart hash h1 h3
      exact ⟨tx', mem_cons_of_mem _ hmem, hhash⟩
  | eraseOrphanTx hash' _ ih =>
    refine ⟨ih.orphans.eraseOrphanTx hash', fun hadded => ?_, fun hash h1 h2 => ?_⟩
    · exact OrphanTxs.eraseOrphanTx_size.trans (ih.size hadded)
    · exact ih.apart hash h1 (OrphanTxs.eraseOrphanTx_stored.1 h2).2
  | @limitOrphanTxSize added s nMaxOrphans nEvicted rand o _ hlimit ih =>
    obtain ⟨o', n, hrun, hi, -, hle, hstored⟩ :=
      OrphanTxs.limitOrphanTxSize_spec ih.orphans nMaxOrphans rand
    rw [hlimit] at hrun
    cases hrun
    exact ⟨hi, fun hadded => hle.trans (ih.size hadded), fun hash h1 h2 =>
      ih.apart hash h1 (hstored hash h2)⟩

/-- **The orphan transactions.**  After every sequence of messages and of calls of `AddOrphanTx`,
`EraseOrphanTx` and `LimitOrphanTxSize`, `mapOrphanTransactionsByPrev` has for each parent the set
of the orphans that spend an output of it, and no empty sets.  The next message is handled to its
end; it leaves no more orphans than `MAX_ORPHAN_TRANSACTIONS` or than there were, and what it has
put into the memory pool is no orphan.  `LimitOrphanTxSize` ends, whatever the random numbers are.
Without calls of `AddOrphanTx` from elsewhere there are never more than `MAX_ORPHAN_TRANSACTIONS`
orphans, and none of them is in the memory pool. -/
theorem orphanTxs_invariant {E : Env} {added : List CTransaction} {s : OrphanTxNode}
    (h : OrphanTxRun E added s) :
    (∀ p hash, (∃ hashes, s.orphans.mapOrphanTransactionsByPrev.lookup p = some hashes ∧
        hash ∈ hashes) ↔
      ∃ tx, s.orphans.mapOrphanTransactions.lookup hash = some tx ∧
        ∃ txin ∈ tx.vin, txin.prevout.hash = p) ∧
    (∀ p hashes, s.orphans.mapOrphanTransactionsByPrev.lookup p = some hashes →
      hashes ≠ [] ∧ hashes.Nodup) ∧
    (∀ a tx, ∃ r s', processTx E a tx s = .ok r s' ∧
      s'.orphans.size ≤ max maxOrphanTransactions s.orphans.size ∧
      ∀ hash, s'.world.mempool.contains hash = true → s.world.mempool.contains hash = false →
        s'.orphans.stored hash = false) ∧
    (∀ nMaxOrphans rand, ∃ o nEvicted,
      s.orphans.limitOrphanTxSize nMaxOrphans rand = some (o, nEvicted) ∧ o.size ≤ nMaxOrphans) ∧
    (added = [] → s.orphans.size ≤ maxOrphanTransactions) ∧
    ∀ hash, s.world.mempool.contains hash = true → s.orphans.stored hash = true →
      ∃ tx ∈ added, E.txHash tx = hash := by
  have hi := h.inv
  refine ⟨fun p hash => ?_, fun p hashes hl => ?_, fun a tx => ?_, fun nMaxOrphans rand => ?_,
    hi.size, hi.apart⟩
  · refine (hi.orphans.lists p hash).trans (exists_congr fun tx => and_congr_right fun _ => ?_)
    exact mem_map
  · exact ⟨hi.orphans.sets.nonempty p hashes hl, hi.orphans.sets.nodup p hashes hl⟩
  · obtain ⟨r, s', hrun, hs⟩ := processTx_spec a tx hi.orphans
    exact ⟨r, s', hrun, hs.size, hs.entered⟩
  · obtain ⟨o, n, hrun, -, hmax, -⟩ :=
      OrphanTxs.limitOrphanTxSize_spec hi.orphans nMaxOrphans rand
    exact ⟨o, n, hrun, hmax⟩

/-! ### More orphans than allowed -/

namespace Simnet

/-- Transactions with unknown parents and different hashes. -/
def waitingTx (n : ℕ) : CTransaction := { strayTx with nTime := n }

theorem waitingTx_size (n : ℕ) : (waitingTx n).getSerializeSize ≤ 5000 := by
  have hsize : strayTx.getSerializeSize ≤ 5000 := by decide
  exact hsize

theorem txHash_waitingTx (n : ℕ) : env.txHash (waitingTx n) = BitVec.ofNat 256 n := rfl

/-- `AddOrphanTx` keeps as many orphans as it is given. -/
theorem run_waitingTxs (n : ℕ) (hn : n < 2 ^ 256) :
    ∃ added s, OrphanTxRun env added s ∧ s.orphans.size = n ∧
      ∀ hash, s.orphans.stored hash = true ↔ ∃ k < n, hash = BitVec.ofNat 256 k := by
  induction n with
  | zero =>
    refine ⟨[], ⟨emptyWorld, .empty⟩, .start emptyWorld, rfl, fun hash => ?_⟩
    simp [OrphanTxs.empty, OrphanTxs.stored]
  | succ n ih =>
    obtain ⟨added, s, hrun, hsize, hstored⟩ := ih (by omega)
    have hnew : s.orphans.stored (env.txHash (waitingTx n)) = false := by
      rw [Bool.eq_false_iff, ne_eq, hstored]
      rintro ⟨k, hk, heq⟩
      have := congrArg BitVec.toNat heq
      rw [txHash_waitingTx, BitVec.toNat_ofNat, BitVec.toNat_ofNat, mod_eq_of_lt (by omega),
        mod_eq_of_lt (by omega)] at this
      omega
    have hkeys := OrphanTxs.addOrphanTx_of_new hnew (waitingTx_size n)
    refine ⟨_, _, hrun.addOrphanTx (waitingTx n), ?_, fun hash => ?_⟩
    · rw [OrphanTxs.size, hkeys, length_cons]
      exact congrArg Nat.succ hsize
    · rw [OrphanTxs.stored_iff, hkeys, mem_cons, ← OrphanTxs.stored_iff, hstored, txHash_waitingTx]
      constructor
      · rintro (rfl | ⟨k, hk, rfl⟩)
        · exact ⟨n, lt_succ_self n, rfl⟩
        · exact ⟨k, hk.trans (lt_succ_self n), rfl⟩
      · rintro ⟨k, hk, rfl⟩
        rcases Nat.lt_succ_iff_lt_or_eq.1 hk with hk | rfl
        · exact .inr ⟨k, hk, rfl⟩
        · exact .inl rfl

/-- What the handling of a message depends on. -/
def txArrival : TxArrival := ⟨context false false, fun _ _ => context false false, fun _ => 0⟩

/-- It shares its first parent with `strayTx`. -/
def twinTx : CTransaction :=
  { strayTx with
    nTime := 7, vin := strayTx.vin ++ [⟨⟨BitVec.ofNat 256 (2 ^ 254), 0⟩, [], uintMax⟩] }

/-- A node without orphans, with one and with two. -/
def noOrphanTx : OrphanTxNode := ⟨{ emptyWorld with maxBlockSize := 15000000 }, .empty⟩
def oneOrphanTx : OrphanTxNode := ⟨noOrphanTx.world, (noOrphanTx.orphans.addOrphanTx env strayTx).1⟩
def twoOrphanTxs : OrphanTxNode :=
  ⟨noOrphanTx.world, (oneOrphanTx.orphans.addOrphanTx env twinTx).1⟩

theorem process_strayTx :
    processTx env txArrival strayTx noOrphanTx = .ok (.orphan true 0) oneOrphanTx := rfl

theorem process_twinTx :
    processTx env txArrival twinTx oneOrphanTx = .ok (.orphan true 0) twoOrphanTxs := rfl

end Simnet

open Simnet

/-- Calls of `AddOrphanTx` from elsewhere can fill the store, and a message for a transaction that
is known leaves it so. -/
theorem orphanTxs_unlimited : ∃ added s r s', OrphanTxRun env added s ∧
      processTx env txArrival (waitingTx 0) s = .ok r s' ∧
      maxOrphanTransactions < s'.orphans.size := by
  obtain ⟨added, s, hrun, hsize, hstored⟩ :=
    run_waitingTxs (maxOrphanTransactions + 1) (by decide)
  have hhave : s.alreadyHave (env.txHash (waitingTx 0)) = true := by
    have hmem : s.orphans.stored (env.txHash (waitingTx 0)) = true :=
      (hstored _).2 ⟨0, succ_pos _, rfl⟩
    simp [OrphanTxNode.alreadyHave, hmem]
  refine ⟨added, s, .alreadyHave, s, hrun, ?_, ?_⟩
  · rw [processTx, get_bind_apply, if_pos hhave]
    rfl
  · rw [hsize]
    exact lt_succ_self _

theorem orphanTxs_invariant_twoOrphanTxs : OrphanTxRun env [] twoOrphanTxs ∧
      twoOrphanTxs.orphans.size = 2 ∧ twoOrphanTxs.orphans.size ≤ maxOrphanTransactions ∧
      ∃ hashes, twoOrphanTxs.orphans.mapOrphanTransactionsByPrev.lookup
      (BitVec.ofNat 256 (2 ^ 255)) = some hashes ∧ env.txHash strayTx ∈ hashes ∧
        env.txHash twinTx ∈ hashes := by
  have hrun : OrphanTxRun env [] twoOrphanTxs :=
    .message (.message (.start noOrphanTx.world) process_strayTx) process_twinTx
  obtain ⟨hindex, -, -, -, hsize, -⟩ := orphanTxs_invariant hrun
  obtain ⟨hashes, hl, hstray⟩ := (hindex (BitVec.ofNat 256 (2 ^ 255)) (env.txHash strayTx)).2
    ⟨strayTx, by decide, by decide⟩
  obtain ⟨hashes', hl', htwin⟩ := (hindex (BitVec.ofNat 256 (2 ^ 255)) (env.txHash twinTx)).2
    ⟨twinTx, by decide, by decide⟩
  obtain rfl := Option.some.inj (hl.symm.trans hl')
  exact ⟨hrun, rfl, hsize rfl, hashes, hl, hstray, htwin⟩

end Espers
