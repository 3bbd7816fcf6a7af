import Espers.Chain.Inputs

/-!
# The memory pool

`CTxMemPool.remove`, `removeConflicts` and `addUnchecked` are the methods of `CTxMemPool` of the
same names, `acceptToMemoryPool` is `AcceptToMemoryPool`.

* `acceptToMemoryPool_keeps` : offering a transaction to the pool changes the pool only, and tells
  the wallets nothing about blocks (`PoolOnly`).
-/

namespace Espers

open Exec

namespace CTxMemPool

/-- `CTxMemPool::exists`. -/
def contains (pool : CTxMemPool) (hash : Uint256) : Bool := (pool.mapTx.lookup hash).isSome

/-- `CTxMemPool::addUnchecked`. -/
def addUnchecked (pool : CTxMemPool) (hash : Uint256) (tx : CTransaction) : CTxMemPool :=
  { mapTx := pool.mapTx.insert hash tx
    mapNextTx := (tx.vin.zipIdx).foldl (fun m x => m.insert x.1.prevout (hash, x.2)) pool.mapNextTx
    nTransactionsUpdated := pool.nTransactionsUpdated + 1 }

/-- The end of `CTxMemPool::remove`: the transaction itself goes. -/
def drop (E : Env) (pool : CTxMemPool) (tx : CTransaction) : CTxMemPool :=
  { mapTx := pool.mapTx.erase (E.txHash tx)
    mapNextTx := tx.vin.foldl (fun m txin => m.erase txin.prevout) pool.mapNextTx
    nTransactionsUpdated := pool.nTransactionsUpdated + 1 }

/-- `CTxMemPool::remove`; with `fRecursive` the transactions that spend its outputs go first.  The
fuel bounds the depth of the recursion. -/
def remove (E : Env) : ℕ → Bool → CTransaction → CTxMemPool → Except Stop CTxMemPool
  | 0, _, _, _ => .error (.crash "CTxMemPool::remove() : recursion does not end")
  | fuel + 1, fRecursive, tx, pool =>
    if !pool.contains (E.txHash tx) then .ok pool
    else do
      let pool ← (if fRecursive then List.range tx.vout.length else []).foldlM (fun pool i =>
        match pool.mapNextTx.lookup ⟨E.txHash tx, i⟩ with
        | none => .ok pool
        | some (hash, _) =>
          match pool.mapTx.lookup hash with
          | none => .error (.crash "CTxMemPool::remove() : dangling CInPoint")
          | some ptx => remove E fuel true ptx pool) pool
      .ok (pool.drop E tx)

/-- `CTxMemPool::removeConflicts`: the transactions that spend an input of `tx` go, recursively. -/
def removeConflicts (E : Env) (tx : CTransaction) (pool : CTxMemPool) : Except Stop CTxMemPool :=
  tx.vin.foldlM (fun pool txin =>
    match pool.mapNextTx.lookup txin.prevout with
    | none => .ok pool
    | some (hash, _) =>
      match pool.mapTx.lookup hash with
      | none => .error (.crash "CTxMemPool::removeConflicts() : dangling CInPoint")
      | some txConflict =>
        if txConflict ≠ tx then remove E (pool.mapTx.keys.length + 1) true txConflict pool
        else .ok pool) pool

/-- `CTxMemPool::clear`. -/
def clear (pool : CTxMemPool) : CTxMemPool := ⟨∅, ∅, pool.nTransactionsUpdated + 1⟩

end CTxMemPool

/-! ### Fees -/

/-- `MIN_TX_FEE`, and `MIN_RELAY_TX_FEE`. -/
def minTxFee : ℤ := 10000

/-- `MAX_BLOCK_SIZE_GEN`, half of the initial `MAX_BLOCK_SIZE`. -/
def maxBlockSizeGen : ℕ := 15000000 / 2

/-- `GetMinFee`; the base fee is the same in both modes. -/
def getMinFee (nBlockSize nBytes : ℕ) : ℤ :=
  let nNewBlockSize := (nBlockSize + nBytes) % 2 ^ 32
  let nMinFee := mul64 (1 + (nBytes : ℤ) / 1000) minTxFee
  if nBlockSize ≠ 1 ∧ nNewBlockSize ≥ maxBlockSizeGen / 2 then
    if nNewBlockSize ≥ maxBlockSizeGen then maxSingleTx
    else
      let nMinFee := mul64 nMinFee ((maxBlockSizeGen / (maxBlockSizeGen - nNewBlockSize) : ℕ) : ℤ)
      if moneyRange nMinFee then nMinFee else maxSingleTx
  else if moneyRange nMinFee then nMinFee else maxSingleTx

/-! ### Accepting a transaction -/

/-- `MANDATORY_SCRIPT_VERIFY_FLAGS`. -/
def mandatoryScriptVerifyFlags : ℕ := 2 ||| 8 ||| 16 ||| 32 ||| 64

/-- `STANDARD_SCRIPT_VERIFY_FLAGS`. -/
def standardScriptVerifyFlags : ℕ := mandatoryScriptVerifyFlags ||| 4

/-- The fee checks of `AcceptToMemoryPool`. -/
def checkPoolFees (ctx : Ctx) (tx : CTransaction) (fLimitFree : Bool) (nFees : ℤ) :
    Except Stop Unit := do
  rejectIf ((fLimitFree ∧ nFees < getMinFee 1000 tx.getSerializeSize) ∨
      (!fLimitFree ∧ nFees < minTxFee))
    (.error "AcceptToMemoryPool : not enough fees")
  rejectIf (fLimitFree ∧ nFees < minTxFee ∧ ctx.freeLimiter tx)
    (.error "AcceptToMemoryPool : free transaction rejected by rate limiter")

/-- The checks of `AcceptToMemoryPool`, which reads the database through a handle of its own. -/
def checkAccept (E : Env) (ctx : Ctx) (w : World) (tx : CTransaction) (fLimitFree : Bool) :
    Except Stop Unit := do
  (checkTransaction w.maxBlockSize tx).mapError
    (Stop.report (.error "AcceptToMemoryPool : CheckTransaction failed"))
  rejectIf tx.isCoinBase (.dos 100 "AcceptToMemoryPool : coinbase as individual tx")
  rejectIf tx.isCoinStake (.dos 100 "AcceptToMemoryPool : coinstake as individual tx")
  rejectIf (!E.testNet ∧ !E.isStandardTx tx) (.error "AcceptToMemoryPool : nonstandard transaction")
  rejectIf (w.mempool.contains (E.txHash tx)) .refuse
  rejectIf (tx.vin.any fun txin => (w.mempool.mapNextTx.lookup txin.prevout).isSome) .refuse
  rejectIf (w.txdb.containsTx (E.txHash tx)) .refuse
  let mapInputs ← (fetchInputs w ctx w.txdb.fresh ∅ false false tx).mapError fun e =>
    match e with
    | .dos _ _ => .error "AcceptToMemoryPool : FetchInputs found invalid tx"
    | .error _ => .refuse
    | e => e
  rejectIf (!E.testNet ∧ !E.areInputsStandard tx mapInputs)
    (.error "AcceptToMemoryPool : nonstandard transaction input")
  rejectIf (E.getLegacySigOpCount tx + E.getP2SHSigOpCount tx mapInputs > w.maxTxSigops)
    (.dos 0 "AcceptToMemoryPool : too many sigops")
  let nValueIn ← getValueMapIn mapInputs tx
  let nValueOut ← tx.getValueOut
  checkPoolFees ctx tx fLimitFree (sub64 nValueIn nValueOut)
  let _ ← (connectInputs E w tx mapInputs ∅ .inMemory w.pindexBest false false
    standardScriptVerifyFlags).mapError
      (Stop.report (.error "AcceptToMemoryPool : ConnectInputs failed"))
  let _ ← (connectInputs E w tx mapInputs ∅ .inMemory w.pindexBest false false
    mandatoryScriptVerifyFlags).mapError (Stop.report (.error
      "AcceptToMemoryPool: : BUG! PLEASE REPORT THIS! ConnectInputs failed against MANDATORY but not STANDARD flags"))

/-- `AcceptToMemoryPool`. -/
def acceptToMemoryPool (E : Env) (ctx : Ctx) (tx : CTransaction) (fLimitFree : Bool) :
    Node Unit := do
  let w ← get
  lift (checkAccept E ctx w tx fLimitFree)
  modify fun w => { w with
    mempool := w.mempool.addUnchecked (E.txHash tx) tx
    walletLog := w.walletLog ++ [⟨tx, none, true⟩] }

/-- The notifications about blocks. -/
def blockEvents (log : List SyncEvent) : List SyncEvent := log.filter fun ev => ev.pblock.isSome

/-- Only the memory pool has changed, and the wallets were told nothing about blocks. -/
structure PoolOnly (w w' : World) : Prop where
  eq : w' = { w with mempool := w'.mempool, walletLog := w'.walletLog }
  log : ∃ events, w'.walletLog = w.walletLog ++ events ∧ blockEvents events = []

instance : IsPreorder World PoolOnly where
  refl w := ⟨rfl, [], by simp, rfl⟩
  trans a b c h1 h2 := by
    obtain ⟨ev1, hl1, hb1⟩ := h1.log
    obtain ⟨ev2, hl2, hb2⟩ := h2.log
    refine ⟨by rw [h2.eq, h1.eq], ev1 ++ ev2, by rw [hl2, hl1, List.append_assoc], ?_⟩
    rw [blockEvents, List.filter_append, ← blockEvents, ← blockEvents, hb1, hb2]
    rfl

theorem PoolOnly.of_pool {w : World} (pool : CTxMemPool) : PoolOnly w { w with mempool := pool } :=
  ⟨rfl, [], by simp, rfl⟩

theorem acceptToMemoryPool_keeps (E : Env) (ctx : Ctx) (tx : CTransaction) (fLimitFree : Bool) :
    Keeps PoolOnly (acceptToMemoryPool E ctx tx fLimitFree) := by
  refine Keeps.bind Keeps.get fun w => Keeps.bind (Keeps.lift _) fun _ => Keeps.modify fun w => ?_
  exact ⟨rfl, [⟨tx, none, true⟩], rfl, rfl⟩

end Espers
