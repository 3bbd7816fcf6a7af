import Espers.Chain.MempoolIndex
import Espers.Chain.Offer
import Espers.Chain.Simnet

/-!
# Runs of the memory pool

A run of the pool starts from the empty pool and goes on with transactions offered to
`AcceptToMemoryPool`, calls of `remove` and `removeConflicts` for any transactions, and `clear`.

* `mempool_index` : **after every run the two maps agree**, so that no outpoint is spent twice, and
  `remove(tx, true)` removes a transaction of the pool with its descendants and nothing else.
-/

namespace Espers

open Exec Prune List Set

/-! ### Runs -/

/-- An operation on the pool.  A transaction is offered in a state of the node, of which only the
pool carries over. -/
inductive PoolOp where
  | accept (ctx : Ctx) (w : World) (tx : CTransaction) (fLimitFree : Bool)
  | remove (tx : CTransaction) (fRecursive : Bool)
  | removeConflicts (tx : CTransaction)
  | clear

namespace PoolOp

/-- The transaction of an operation. -/
def tx? : PoolOp → Option CTransaction
  | .accept _ _ tx _ | .remove tx _ | .removeConflicts tx => some tx
  | .clear => none

/-- The pool after an operation; a transaction that is not accepted leaves it as it is. -/
def exec (E : Env) (pool : CTxMemPool) : PoolOp → Except Stop CTxMemPool
  | .accept ctx w tx fLimitFree =>
    match checkAccept E ctx { w with mempool := pool } tx fLimitFree with
    | .ok _ => .ok (pool.addUnchecked (E.txHash tx) tx)
    | .error _ => .ok pool
  | .remove tx fRecursive => CTxMemPool.remove E pool.removeFuel fRecursive tx pool
  | .removeConflicts tx => CTxMemPool.removeConflicts E tx pool
  | .clear => .ok pool.clear

/-- The pool after a list of operations. -/
def run (E : Env) (pool : CTxMemPool) (ops : List PoolOp) : Except Stop CTxMemPool :=
  ops.foldlM (exec E) pool

end PoolOp

theorem PoolOp.exec_indexed {E : Env} {T : Set CTransaction} {pool : CTxMemPool} {op : PoolOp}
    (hT : PoolHashes E T) (hi : pool.Indexed E) (hsub : pool.members E ⊆ T)
    (hop : ∀ tx, op.tx? = some tx → tx ∈ T) :
    ∃ pool', op.exec E pool = .ok pool' ∧ pool'.Indexed E ∧ pool'.members E ⊆ T := by
  cases op with
  | accept ctx w tx fLimitFree =>
    cases hx : checkAccept E ctx { w with mempool := pool } tx fLimitFree with
    | ok u =>
      obtain ⟨hsane, hnew, hin⟩ := checkAccept_pool hx
      refine ⟨_, by simp only [PoolOp.exec, hx],
        CTxMemPool.addUnchecked_indexed hi hnew hin hsane.nodup, ?_⟩
      rw [CTxMemPool.addUnchecked_members hnew]
      exact insert_subset (hop tx rfl) hsub
    | error e => exact ⟨pool, by simp only [PoolOp.exec, hx], hi, hsub⟩
  | remove tx fRecursive =>
    cases fRecursive with
    | true =>
      obtain ⟨pool', h1, h2, h3⟩ := CTxMemPool.removeRecursive_spec hT hi hsub (hop tx rfl)
      exact ⟨pool', h1, h2, h3 ▸ prune_subset.trans hsub⟩
    | false =>
      obtain ⟨pool', h1, h2, h3⟩ := CTxMemPool.removeOne_spec hT hi hsub (hop tx rfl)
      exact ⟨pool', h1, h2, h3 ▸ sdiff_subset.trans hsub⟩
  | removeConflicts tx =>
    obtain ⟨pool', h1, h2, h3⟩ := CTxMemPool.removeConflicts_spec hT hi hsub tx
    exact ⟨pool', h1, h2, h3 ▸ prune_subset.trans hsub⟩
  | clear =>
    refine ⟨pool.clear, rfl, ⟨?_, ?_⟩, ?_⟩
    · intro hash tx h
      simp [CTxMemPool.clear] at h
    · intro o hash i
      simp [CTxMemPool.clear]
    · intro t ht
      simp [CTxMemPool.mem_members, CTxMemPool.clear] at ht

theorem PoolOp.run_indexed {E : Env} {T : Set CTransaction} {pool : CTxMemPool} {ops : List PoolOp}
    (hT : PoolHashes E T) (hi : pool.Indexed E) (hsub : pool.members E ⊆ T)
    (hops : ∀ op ∈ ops, ∀ tx, op.tx? = some tx → tx ∈ T) :
    ∃ pool', PoolOp.run E pool ops = .ok pool' ∧ pool'.Indexed E ∧ pool'.members E ⊆ T := by
  induction ops generalizing pool with
  | nil => exact ⟨pool, rfl, hi, hsub⟩
  | cons op ops ih =>
    obtain ⟨pool1, h1, h2, h3⟩ := exec_indexed hT hi hsub (hops op mem_cons_self)
    obtain ⟨pool2, h4, h5, h6⟩ := ih h2 h3 fun op' h => hops op' (mem_cons_of_mem _ h)
    refine ⟨pool2, ?_, h5, h6⟩
    rw [PoolOp.run, foldlM_cons, h1]
    exact h4

theorem empty_members (E : Env) : CTxMemPool.empty.members E = ∅ := by
  ext t
  simp [CTxMemPool.mem_members, CTxMemPool.empty]

/-- **The two maps agree after every run.**  Every run goes through; afterwards `mapNextTx` lists
exactly the inputs of the transactions in the pool, no outpoint is spent by two of them,
`remove(tx, true)` for a transaction of the pool removes it and its descendants in the pool and
nothing else, and for any other transaction it changes nothing. -/
theorem mempool_index {E : Env} {T : Set CTransaction} {ops : List PoolOp} (hT : PoolHashes E T)
    (hops : ∀ op ∈ ops, ∀ tx, op.tx? = some tx → tx ∈ T) :
    ∃ pool, PoolOp.run E .empty ops = .ok pool ∧ pool.Indexed E ∧
      (∀ tx ∈ pool.members E, ∀ tx' ∈ pool.members E, ∀ (i j : ℕ) (txin txin' : CTxIn),
        tx.vin[i]? = some txin → tx'.vin[j]? = some txin' → txin.prevout = txin'.prevout →
        tx = tx' ∧ i = j) ∧
      (∀ tx ∈ pool.members E, ∃ pool', (PoolOp.remove tx true).exec E pool = .ok pool' ∧
        pool'.Indexed E ∧
        ∀ t, t ∈ pool'.members E ↔ t ∈ pool.members E ∧ ¬ Below (Spends E) (pool.members E) tx t) ∧
      ∀ tx, pool.contains (E.txHash tx) = false →
        (PoolOp.remove tx true).exec E pool = .ok pool := by
  have hempty : CTxMemPool.empty.members E ⊆ T := by
    rw [empty_members]
    exact empty_subset T
  obtain ⟨pool, hrun, hi, hsub⟩ := PoolOp.run_indexed hT CTxMemPool.empty_indexed hempty hops
  refine ⟨pool, hrun, hi, ?_, ?_, ?_⟩
  · intro tx htx tx' htx' i j txin txin' h1 h2 h3
    exact hi.spends_once htx htx' h1 h2 h3
  · intro tx htx
    obtain ⟨pool', h1, h2, h3⟩ := CTxMemPool.removeRecursive_spec hT hi hsub (hsub htx)
    refine ⟨pool', h1, h2, fun t => ?_⟩
    rw [h3, mem_prune]
    simp [htx]
  · intro tx htx
    simp only [PoolOp.exec, CTxMemPool.removeFuel, CTxMemPool.remove, htx]
    rfl

/-! ### A payment and its child -/

namespace Simnet

/-- A transaction with time stamp `nTime` that spends the first output of the one with hash `prev`
and pays `nValue`. -/
def payment (nTime : ℕ) (prev : Uint256) (nValue : ℤ) : CTransaction where
  nVersion := 1
  nTime := nTime
  vin := [⟨⟨prev, 0⟩, [], uintMax⟩]
  vout := [⟨nValue, [0x51]⟩]
  nLockTime := 0

/-- A transaction on disk, a payment that spends it, and one that spends the payment. -/
def fundTx : CTransaction := payment 1 7 1000000
def parentTx : CTransaction := payment 2 1 900000
def childTx : CTransaction := payment 3 2 800000

/-- A block that holds `fundTx`. -/
def fundBlock : CBlock := ⟨⟨7, 0, 0, 1, 0x207fffff, 0⟩, [fundTx], []⟩

/-- A node that has `fundTx` on disk. -/
def fundWorld : World := { emptyWorld with
  txdb := ⟨AList.insert (.tx 1)
    (CTxIndex.ofOutputs ⟨1, 8, 89, by decide⟩ 1 : DbKey.Val (.tx 1)) ∅, none⟩
  files := ⟨1, [⟨1, 8, fundBlock⟩]⟩ }

/-- The payment is accepted, then the one that spends it, and the first is removed as it is when a
block contains it. -/
def leftBehind : List PoolOp :=
  [.accept (context false false) fundWorld parentTx true,
   .accept (context false false) fundWorld childTx true,
   .remove parentTx false]

/-- The pool with the first payment, and the one that is left in the end. -/
def parentPool : CTxMemPool := CTxMemPool.empty.addUnchecked 2 parentTx
def childPool : CTxMemPool := (parentPool.addUnchecked 3 childTx).drop env parentTx

theorem run_leftBehind : PoolOp.run env .empty leftBehind = .ok childPool := by
  rfl

/-- The hashes of the two payments. -/
theorem payments_hashes : PoolHashes env {parentTx, childTx} where
  inj := by
    rintro a (rfl | rfl) b (rfl | rfl) h
    · rfl
    · exact absurd h (by decide)
    · exact absurd h (by decide)
    · rfl
  acyclic := by
    refine ⟨CTransaction.nTime, ?_⟩
    rintro a (rfl | rfl) b (rfl | rfl) ⟨i, -, txin, hin, ho⟩
    all_goals
      obtain rfl := mem_singleton.1 hin
      have hh := congrArg COutPoint.hash ho
    · exact absurd hh (by decide : (1 : Uint256) ≠ 2)
    · decide
    · exact absurd hh (by decide : (1 : Uint256) ≠ 3)
    · exact absurd hh (by decide : (2 : Uint256) ≠ 3)

theorem leftBehind_txs : ∀ op ∈ leftBehind, ∀ tx, op.tx? = some tx →
    tx ∈ ({parentTx, childTx} : Set CTransaction) := by
  intro op hop tx htx
  simp only [leftBehind, mem_cons, not_mem_nil, or_false] at hop
  rcases hop with rfl | rfl | rfl <;> cases htx
  · exact .inl rfl
  · exact .inr rfl
  · exact .inl rfl

end Simnet

open Simnet

theorem mempool_index_leftBehind : ∃ pool, PoolOp.run env .empty leftBehind = .ok pool ∧
    pool.Indexed env := by
  obtain ⟨pool, hrun, hi, -⟩ := mempool_index payments_hashes leftBehind_txs
  exact ⟨pool, hrun, hi⟩

/-- A transaction that is not in the pool is not removed with its descendants: the payment left in
the pool when its parent went into a block stays there. -/
theorem remove_leaves_child :
    ¬ ∀ (E : Env) (T : Set CTransaction) (ops : List PoolOp) (pool : CTxMemPool)
      (tx : CTransaction), PoolHashes E T →
      (∀ op ∈ ops, ∀ tx, op.tx? = some tx → tx ∈ T) → tx ∈ T →
      PoolOp.run E .empty ops = .ok pool →
      ∃ pool', (PoolOp.remove tx true).exec E pool = .ok pool' ∧ ∀ t, t ∈ pool'.members E ↔
          t ∈ pool.members E ∧ ¬ Below (Spends E) (pool.members E) tx t := by
  intro h
  obtain ⟨pool', hrm, hpool'⟩ := h env _ leftBehind childPool parentTx
    payments_hashes leftBehind_txs (.inl rfl) run_leftBehind
  have hmem : childTx ∈ childPool.members env := by
    rw [CTxMemPool.mem_members]
    decide
  cases hrm
  refine ((hpool' childTx).1 hmem).2 (.single ⟨⟨0, by decide, ?_⟩, hmem⟩)
  exact ⟨_, mem_singleton_self _, rfl⟩

end Espers
