import Espers.Chain.BlockSize
import Espers.Chain.Reward
import Espers.Chain.View

/-!
# Connecting and disconnecting a block

`connectBlock` and `disconnectBlock` are the methods of `CBlock` of the same names.  Connecting
collects the changes of the transaction index in `mapQueuedChanges` and writes them at the end;
disconnecting works record by record, from the last transaction to the first.

* `connectTxs`, `AllSpendable`, `totalIn`, `totalOut` : what the transactions of a block do to a
  view, what they need, and what goes in and out.
* `connectTransactions_spec` : the loop of `ConnectBlock` computes these, without overflow.
* `connectBlock_spec` : what a block that was connected satisfies (`ConnectTrace`).
-/

namespace Espers

open Exec List Function Except EStateM AList

/-! ### The source -/

/-- The state of the loop of `ConnectBlock`. -/
structure BlockTally where
  nFees : ℤ
  nValueIn : ℤ
  nValueOut : ℤ
  nCoinbaseReward : ℤ
  nStakeReward : ℤ
  nSigOps : ℕ
  nTxPos : ℕ
  mapQueuedChanges : MapTxIndex

/-- The state before the first transaction, which lies at `nTxPos`. -/
def BlockTally.init (nTxPos : ℕ) : BlockTally := ⟨0, 0, 0, 0, 0, 0, nTxPos, ∅⟩

/-- The script flags of a block: `NOCACHE`, and under protocol v3 `STRICTENC`, `NULLDUMMY`,
`ALLOW_EMPTY_SIG`, `FIX_HASHTYPE` and `CHECKLOCKTIMEVERIFY`. -/
def blockFlags (E : Env) (nTime : ℕ) : ℕ := if isProtocolV3 E nTime then
    1 ||| 2 ||| 8 ||| 16 ||| 32 ||| 64 else 1

/-- A transaction with this hash is in the index and has an unspent output. -/
def overwrites (txdb : CTxDB) (hash : Uint256) : Bool :=
  match txdb.readTxIndex hash with
  | some txindexOld => txindexOld.vSpent.any CDiskTxPos.isNull
  | none => false

/-- Count the values of a transaction with inputs. -/
def BlockTally.addValues (t : BlockTally) (tx : CTransaction) (nTxValueIn nTxValueOut : ℤ) :
    Except Stop BlockTally := do
  rejectIf (add64 t.nValueIn nTxValueIn < 0)
    (.dos 100 "ConnectBlock() : overflow detected - nValueIn += nTxValueIn")
  rejectIf (add64 t.nValueOut nTxValueOut < 0)
    (.dos 100 "ConnectBlock() : overflow detected - nValueOut += nTxValueOut")
  .ok { t with
    nValueIn := add64 t.nValueIn nTxValueIn
    nValueOut := add64 t.nValueOut nTxValueOut
    nFees := if tx.isCoinStake then t.nFees else add64 t.nFees (sub64 nTxValueIn nTxValueOut)
    nStakeReward := if tx.isCoinStake then sub64 nTxValueOut nTxValueIn else t.nStakeReward }

/-- The coinbase branch of the loop of `ConnectBlock`. -/
def connectCoinBase (tx : CTransaction) (t : BlockTally) : Except Stop BlockTally := do
  let nCoinbaseReward ← tx.getValueOut
  .ok { t with nCoinbaseReward := nCoinbaseReward, nValueOut := add64 t.nValueOut nCoinbaseReward }

/-- The other branch of the loop of `ConnectBlock`. -/
def connectSpender (E : Env) (w : World) (ctx : Ctx) (p : Uint256) (flags : ℕ) (tx : CTransaction)
    (posThisTx : CDiskTxPos) (t : BlockTally) : Except Stop BlockTally := do
  let mapInputs ← fetchInputs w ctx w.txdb t.mapQueuedChanges true false tx
  let nSigOps := t.nSigOps + E.getP2SHSigOpCount tx mapInputs
  rejectIf (nSigOps > w.maxBlockSigops) (.dos 100 "ConnectBlock() : too many sigops")
  let nTxValueIn ← getValueMapIn mapInputs tx
  let nTxValueOut ← tx.getValueOut
  let t ← { t with nSigOps := nSigOps }.addValues tx nTxValueIn nTxValueOut
  let mapQueuedChanges ← connectInputs E w tx mapInputs t.mapQueuedChanges posThisTx (some p) true
    false flags
  .ok { t with mapQueuedChanges := mapQueuedChanges }

/-- One pass of the loop of `ConnectBlock`. -/
def connectTransaction (E : Env) (w : World) (ctx : Ctx) (p : Uint256) (e : CBlockIndex) (flags : ℕ)
    (t : BlockTally) (tx : CTransaction) : Except Stop BlockTally := do
  rejectIf (overwrites w.txdb (E.txHash tx))
    (.dos 100 "ConnectBlock() : tried to overwrite transaction")
  let nSigOps := t.nSigOps + E.getLegacySigOpCount tx
  rejectIf (nSigOps > w.maxBlockSigops) (.dos 100 "ConnectBlock() : too many sigops")
  let posThisTx := e.txPos t.nTxPos
  let t := { t with nSigOps := nSigOps, nTxPos := t.nTxPos + tx.getSerializeSize }
  let t ← if tx.isCoinBase then connectCoinBase tx t
    else connectSpender E w ctx p flags tx posThisTx t
  .ok { t with mapQueuedChanges :=
    t.mapQueuedChanges.insert (E.txHash tx) (.ofOutputs posThisTx tx.vout.length) }

/-- The loop of `ConnectBlock`. -/
def connectTransactions (E : Env) (w : World) (ctx : Ctx) (p : Uint256) (e : CBlockIndex)
    (flags : ℕ) : BlockTally → List CTransaction → Except Stop BlockTally
  | t, [] => .ok t
  | t, tx :: vtx => do
    let t ← connectTransaction E w ctx p e flags t tx
    connectTransactions E w ctx p e flags t vtx

/-- The reward checks of `ConnectBlock`; the result is `nReward`. -/
def checkReward (E : Env) (w : World) (ctx : Ctx) (block : CBlock) (e best : CBlockIndex)
    (t : BlockTally) : Except Stop ℤ :=
  if block.isProofOfStake then do
    let nCoinAge ← (getCoinAge E w ctx w.txdb e.pprev (block.vtx.getD 1 default)).mapError fun _ =>
      .error "ConnectBlock() : unable to get coin age for coinstake"
    let nCalculatedStakeReward :=
      getProofOfStakeReward best.nHeight best.nMoneySupply (wrap64 nCoinAge) t.nFees
    rejectIf (t.nStakeReward > nCalculatedStakeReward)
      (.dos 100 "ConnectBlock() : coinstake pays too much")
    .ok (sub64 nCalculatedStakeReward t.nFees)
  else do
    let nCalculatedCoinbaseReward := calculatedCoinbaseReward best.nMoneySupply e.nHeight t.nFees
    rejectIf (nCalculatedCoinbaseReward > t.nCoinbaseReward)
      (.dos 50 "ConnectBlock() : coinbase reward exceeded")
    .ok (sub64 nCalculatedCoinbaseReward t.nFees)

/-- Write the queued changes of the transaction index. -/
def flushQueue (mapQueuedChanges : MapTxIndex) (txdb : CTxDB) : CTxDB :=
  mapQueuedChanges.entries.foldl (fun txdb c => txdb.updateTxIndex c.1 c.2) txdb

/-- Write the record of the previous block with another `hashNext`. -/
def writeHashNext (E : Env) (prev : Option CBlockIndex) (hashNext : Uint256) (txdb : CTxDB) :
    CTxDB :=
  match prev with
  | none => txdb
  | some d => txdb.writeBlockIndex E { CDiskBlockIndex.ofIndex d with hashNext := hashNext }

/-- `*pindex->pprev`, if there is one. -/
def derefPrev (e : CBlockIndex) : Node (Option CBlockIndex) :=
  match e.pprev with
  | none => pure none
  | some q => do
    let d ← deref (some q)
    pure (some d)

/-- The entry of a connected block, with its mint and the money supply. -/
def CBlockIndex.minted (e : CBlockIndex) (prev : Option CBlockIndex) (t : BlockTally) :
    CBlockIndex :=
  { e with
    nMint := add64 (sub64 t.nValueOut t.nValueIn) t.nFees
    nMoneySupply :=
      sub64 (add64 ((prev.map CBlockIndex.nMoneySupply).getD 0) t.nValueOut) t.nValueIn }

/-- The writes at the end of `ConnectBlock`, and the notifications. -/
def World.recordConnected (E : Env) (w : World) (block : CBlock) (p : Uint256) (e : CBlockIndex)
    (prev : Option CBlockIndex) (t : BlockTally) : World :=
  { w with
    mapBlockIndex := w.mapBlockIndex.insert p (e.minted prev t)
    txdb := writeHashNext E prev e.hashBlock (flushQueue t.mapQueuedChanges
      (w.txdb.writeBlockIndex E (.ofIndex (e.minted prev t))))
    walletLog := w.walletLog ++ syncBlock block true }

/-- The part of `ConnectBlock` that checks: it ends with the entry, the previous entry and the
totals. -/
def checkConnect (E : Env) (ctx : Ctx) (block : CBlock) (p : Uint256) :
    Node (CBlockIndex × Option CBlockIndex × BlockTally) := do
  let best ← bestIndex
  let w ← get
  lift (checkBlock E ⟨w.maxBlockSize, w.maxBlockSigops, ctx.getAdjustedTime⟩ best.nHeight block
    block.isProofOfWork true block.isProofOfStake)
  updateBlockSize p
  let e ← deref (some p)
  let w ← get
  let t ← lift (connectTransactions E w ctx p e (blockFlags E block.nTime)
    (.init (firstTxPos e.nBlockPos block)) block.vtx)
  let nReward ← lift (checkReward E w ctx block e best t)
  lift (rejectIf (add64 t.nValueIn nReward < t.nValueOut)
    (.dos 100 "ConnectBlock() : block contains inputs that are less that outputs"))
  let prev ← derefPrev e
  pure (e, prev, t)

/-- `CBlock::ConnectBlock`. -/
def connectBlock (E : Env) (ctx : Ctx) (block : CBlock) (p : Uint256) : Node Unit := do
  let (e, prev, t) ← checkConnect E ctx block p
  modify fun w => w.recordConnected E block p e prev t

/-- The loop of `DisconnectBlock`, which is given the transactions in reverse order. -/
def disconnectTransactions (E : Env) : List CTransaction → Node Unit
  | [] => pure ()
  | tx :: vtx => do
    disconnectInputs E tx
    disconnectTransactions E vtx

/-- `CBlock::DisconnectBlock`. -/
def disconnectBlock (E : Env) (block : CBlock) (p : Uint256) : Node Unit := do
  disconnectTransactions E block.vtx.reverse
  let e ← deref (some p)
  let prev ← derefPrev e
  modify fun w => { w with
    txdb := writeHashNext E prev 0 w.txdb
    walletLog := w.walletLog ++ syncBlock block false }

/-! ### The transactions of a block -/

/-- The view after the transactions are connected, the first of them at offset `pos` of the file. -/
def connectTxs (E : Env) (e : CBlockIndex) : ℕ → List CTransaction → View → View
  | _, [], v => v
  | pos, tx :: vtx, v =>
    connectTxs E e (pos + tx.getSerializeSize) vtx (connectTx E (e.txPos pos) tx v)

/-- Each transaction finds the outpoints it consumes unspent when its turn comes. -/
def AllSpendable (E : Env) (e : CBlockIndex) : ℕ → List CTransaction → View → Prop
  | _, [], _ => True
  | pos, tx :: vtx, v =>
    Spendable v tx ∧
      AllSpendable E e (pos + tx.getSerializeSize) vtx (connectTx E (e.txPos pos) tx v)

/-- The value the transactions take in. -/
def totalIn (rd : CDiskTxPos → Option CTransaction) (E : Env) (e : CBlockIndex) :
    ℕ → List CTransaction → View → ℤ
  | _, [], _ => 0
  | pos, tx :: vtx, v =>
    valueIn rd v tx +
      totalIn rd E e (pos + tx.getSerializeSize) vtx (connectTx E (e.txPos pos) tx v)

/-- The value the transactions put out. -/
def totalOut (vtx : List CTransaction) : ℤ := (vtx.map CTransaction.valueOut).sum

theorem totalOut_cons (tx : CTransaction) (vtx : List CTransaction) :
    totalOut (tx :: vtx) = tx.valueOut + totalOut vtx := by
  simp [totalOut]

section Loop

variable {E : Env} {w : World} {ctx : Ctx} {p : Uint256} {e : CBlockIndex} {flags : ℕ}
  {t t' : BlockTally} {tx : CTransaction} {vtx : List CTransaction}

/-- The running totals of the source are in the range of `int64_t`, and the fees are part of the
value that came in. -/
structure BlockTally.InRange (t : BlockTally) : Prop where
  valueIn : 0 ≤ t.nValueIn ∧ t.nValueIn < 9223372036854775808
  valueOut : 0 ≤ t.nValueOut ∧ t.nValueOut < 9223372036854775808
  fees : 0 ≤ t.nFees ∧ t.nFees ≤ t.nValueIn

theorem BlockTally.init_inRange (pos : ℕ) : (BlockTally.init pos).InRange := by
  refine ⟨?_, ?_, ?_⟩ <;> simp [init]

/-- What a pass of the loop from `t` to `t'` over the transactions `vtx` has checked and done. -/
structure Tallied (E : Env) (w : World) (e : CBlockIndex) (vtx : List CTransaction)
    (t t' : BlockTally) : Prop where
  view : overlay t'.mapQueuedChanges w.txdb.view =
    connectTxs E e t.nTxPos vtx (overlay t.mapQueuedChanges w.txdb.view)
  spendable : AllSpendable E e t.nTxPos vtx (overlay t.mapQueuedChanges w.txdb.view)
  valueIn : t'.nValueIn = t.nValueIn + totalIn w.files.diskTx E e t.nTxPos vtx
    (overlay t.mapQueuedChanges w.txdb.view)
  valueOut : t'.nValueOut = t.nValueOut + totalOut vtx
  range : t'.InRange
  noOverwrite : ∀ tx ∈ vtx, overwrites w.txdb (E.txHash tx) = false

theorem addValues_spec {a b : ℤ} (ht : t.InRange) (ha : 0 ≤ a ∧ a ≤ 5000000000000000000)
    (hb : 0 ≤ b ∧ b ≤ 5000000000000000000) (hab : tx.isCoinStake = false → b ≤ a)
    (h : t.addValues tx a b = .ok t') :
    t'.nValueIn = t.nValueIn + a ∧ t'.nValueOut = t.nValueOut + b ∧ t'.InRange ∧
      t'.mapQueuedChanges = t.mapQueuedChanges ∧ t'.nTxPos = t.nTxPos := by
  simp only [BlockTally.addValues, except_bind_eq_ok, rejectIf_eq_ok,
    exists_const, not_lt, ok.injEq] at h
  obtain ⟨hin, hout, rfl⟩ := h
  obtain ⟨hi, hi'⟩ := add64_of_nonneg ht.valueIn.1 ht.valueIn.2 ha.1 ha.2 hin
  obtain ⟨ho, ho'⟩ := add64_of_nonneg ht.valueOut.1 ht.valueOut.2 hb.1 hb.2 hout
  refine ⟨hi, ho, ⟨⟨hin, hi'⟩, ⟨hout, ho'⟩, ?_⟩, rfl, rfl⟩
  have hf := ht.fees
  cases hst : tx.isCoinStake with
  | true =>
    simp only [↓reduceIte]
    omega
  | false =>
    have hle := hab hst
    have hsub : sub64 a b = a - b := wrap64_of_range (by omega) (by omega)
    have hadd : add64 t.nFees (a - b) = t.nFees + (a - b) :=
      wrap64_of_range (by omega) (by omega)
    simp only [hsub]
    omega

theorem addValues_mapQueuedChanges {a b : ℤ} (h : t.addValues tx a b = .ok t') :
    t'.mapQueuedChanges = t.mapQueuedChanges := by
  simp only [BlockTally.addValues, except_bind_eq_ok, ok.injEq] at h
  obtain ⟨-, -, -, -, rfl⟩ := h
  rfl

theorem connectTx_of_coinBase {pos : CDiskTxPos} {v : View} (hcb : tx.isCoinBase = true) :
    connectTx E pos tx v = update v (E.txHash tx) (some (.ofOutputs pos tx.vout.length)) := by
  simp [connectTx, CTransaction.spends, hcb]

theorem connectTransaction_coinBase (hcb : tx.isCoinBase = true) (hs : TxSane tx)
    (h0 : t.nValueOut = 0) (hr : t.InRange)
    (h : connectTransaction E w ctx p e flags t tx = .ok t') :
    Tallied E w e [tx] t t' ∧ t'.nTxPos = t.nTxPos + tx.getSerializeSize := by
  have hsp : tx.spends = [] := by simp [CTransaction.spends, hcb]
  simp only [connectTransaction, hcb, ↓reduceIte, connectCoinBase, hs.getValueOut,
    except_bind_eq_ok, rejectIf_eq_ok, exists_const, ok.injEq,
    except_ok_bind] at h
  obtain ⟨hno, -, rfl⟩ := h
  have hadd : add64 t.nValueOut tx.valueOut = t.nValueOut + tx.valueOut := by
    have := hs.nonneg
    have := hs.le_max
    exact wrap64_of_range (by omega) (by omega)
  refine ⟨⟨?_, ?_, ?_, ?_, ⟨hr.valueIn, ?_, hr.fees⟩, ?_⟩, rfl⟩
  · rw [overlay_insert, connectTxs, connectTxs, connectTx_of_coinBase hcb]
  · exact ⟨by simp [Spendable, hsp], trivial⟩
  · simp [totalIn, Espers.valueIn, hsp]
  · simp [totalOut, hadd]
  · have := hs.nonneg
    have := hs.le_max
    simp only [hadd]
    omega
  · simpa using hno

theorem connectTransaction_spender (hcb : tx.isCoinBase = false) (hs : TxSane tx)
    (hr : t.InRange) (h : connectTransaction E w ctx p e flags t tx = .ok t') :
    Tallied E w e [tx] t t' ∧ t'.nTxPos = t.nTxPos + tx.getSerializeSize := by
  simp only [connectTransaction, hcb, Bool.false_eq_true, ↓reduceIte, connectSpender,
    hs.getValueOut, except_bind_eq_ok, rejectIf_eq_ok, exists_const,
    ok.injEq, exists_eq_left'] at h
  obtain ⟨hno, -, t2, ⟨m, hm, -, a, ha, t1, ht1, q, hq, rfl⟩, rfl⟩ := h
  rw [addValues_mapQueuedChanges ht1] at hq
  obtain ⟨hview, hspend, hval, h0, h1, hfee⟩ := connectInputs_spec hs hcb (fetchInputs_sound hm) hq
  rw [ha, ok.injEq] at hval
  subst hval
  have hr1 : BlockTally.InRange { t with
      nSigOps := t.nSigOps + E.getLegacySigOpCount tx + E.getP2SHSigOpCount tx m
      nTxPos := t.nTxPos + tx.getSerializeSize } := ⟨hr.valueIn, hr.valueOut, hr.fees⟩
  obtain ⟨hin, hout, hrange, -, hpos⟩ :=
    addValues_spec hr1 ⟨h0, h1⟩ ⟨hs.nonneg, hs.le_max⟩ hfee ht1
  refine ⟨⟨?_, ⟨hspend, trivial⟩, ?_, ?_,
    ⟨hrange.valueIn, hrange.valueOut, hrange.fees⟩, by simpa using hno⟩, hpos⟩
  · rw [overlay_insert, hview]
    rfl
  · simpa [totalIn] using hin
  · simpa [totalOut] using hout

theorem Tallied.cons {t1 : BlockTally} (h1 : Tallied E w e [tx] t t1)
    (hpos : t1.nTxPos = t.nTxPos + tx.getSerializeSize) (h2 : Tallied E w e vtx t1 t') :
    Tallied E w e (tx :: vtx) t t' := by
  have hv : overlay t1.mapQueuedChanges w.txdb.view =
      connectTx E (e.txPos t.nTxPos) tx (overlay t.mapQueuedChanges w.txdb.view) := h1.view
  obtain ⟨v2, s2, i2, o2, r2, n2⟩ := h2
  rw [hpos, hv] at v2 s2 i2
  refine ⟨v2, ⟨h1.spendable.1, s2⟩, ?_, ?_, r2, ?_⟩
  · rw [i2, h1.valueIn, totalIn, totalIn, totalIn]
    omega
  · rw [o2, h1.valueOut, totalOut_cons, totalOut_cons]
    simp only [totalOut, map_nil, sum_nil]
    omega
  · intro x hx
    rcases mem_cons.1 hx with rfl | hx
    · exact h1.noOverwrite x mem_cons_self
    · exact n2 x hx

theorem connectTransactions_spenders (hs : ∀ tx ∈ vtx, TxSane tx)
    (hcb : ∀ tx ∈ vtx, tx.isCoinBase = false) (hr : t.InRange)
    (h : connectTransactions E w ctx p e flags t vtx = .ok t') : Tallied E w e vtx t t' := by
  induction vtx generalizing t with
  | nil =>
    simp only [connectTransactions, ok.injEq] at h
    subst h
    exact ⟨rfl, trivial, by simp [totalIn], by simp [totalOut], hr, by simp⟩
  | cons tx vtx ih =>
    obtain ⟨t1, h1, h⟩ := except_bind_eq_ok.1 h
    obtain ⟨hstep, hpos⟩ := connectTransaction_spender (hcb tx mem_cons_self)
      (hs tx mem_cons_self) hr h1
    exact hstep.cons hpos (ih (fun x hx => hs x (mem_cons_of_mem _ hx))
      (fun x hx => hcb x (mem_cons_of_mem _ hx)) hstep.range h)

/-- **The loop of `ConnectBlock`**: the queued changes are those of connecting the transactions one
after the other, every input was unspent at its turn, and no total overflows. -/
theorem connectTransactions_spec {block : CBlock} {pos : ℕ} (hb : BlockSane E block)
    (h : connectTransactions E w ctx p e flags (.init pos) block.vtx = .ok t') :
    Tallied E w e block.vtx (.init pos) t' := by
  obtain ⟨cb, rest, hv, hcb, hrest⟩ := hb.coinbase
  have hs := hb.txs
  rw [hv] at h hs ⊢
  obtain ⟨t1, h1, h⟩ := except_bind_eq_ok.1 h
  obtain ⟨hstep, hpos⟩ := connectTransaction_coinBase hcb (hs cb mem_cons_self) rfl
    (BlockTally.init_inRange pos) h1
  exact hstep.cons hpos (connectTransactions_spenders
    (fun x hx => hs x (mem_cons_of_mem _ hx)) hrest hstep.range h)

end Loop

/-! ### The database -/

section Database

variable {E : Env} {txdb : CTxDB}

@[simp] theorem view_writeBlockIndex (d : CDiskBlockIndex) :
    (txdb.writeBlockIndex E d).view = txdb.view := by
  funext h
  exact Store.Db.read_write_ne _ _ (by simp)

@[simp] theorem view_writeHashNext (prev : Option CBlockIndex) (hashNext : Uint256) :
    (writeHashNext E prev hashNext txdb).view = txdb.view := by
  cases prev with
  | none => rfl
  | some d => exact view_writeBlockIndex _

@[simp] theorem view_writeHashBestChain (hash : Uint256) :
    (txdb.writeHashBestChain hash).view = txdb.view := by
  funext h
  exact Store.Db.read_write_ne _ _ (by simp)

theorem view_updateTxIndex (hash : Uint256) (txindex : CTxIndex) :
    (txdb.updateTxIndex hash txindex).view = update txdb.view hash (some txindex) := by
  funext h
  by_cases hh : h = hash
  · subst hh
    rw [update_self]
    exact Store.Db.read_write_self _ _ _
  · rw [update_of_ne hh]
    exact Store.Db.read_write_ne _ _ (by simpa using hh)

theorem view_eraseTxIndex (hash : Uint256) :
    (txdb.eraseTxIndex hash).view = update txdb.view hash none := by
  funext h
  by_cases hh : h = hash
  · subst hh
    rw [update_self]
    exact Store.Db.read_erase_self _ _
  · rw [update_of_ne hh]
    exact Store.Db.read_erase_ne _ (by simpa using hh)

/-- **Writing the queued changes gives the view with the changes on top.** -/
theorem view_flushQueue (q : MapTxIndex) : (flushQueue q txdb).view = overlay q txdb.view := by
  have key : ∀ (l : List (Sigma fun _ : Uint256 => CTxIndex)) (txdb : CTxDB) (h : Uint256),
      l.NodupKeys → (l.foldl (fun txdb c => .updateTxIndex txdb c.1 c.2) txdb).view h =
        (l.dlookup h).or (txdb.view h) := by
    intro l
    induction l with
    | nil => intro txdb h _; simp
    | cons c l ih =>
      obtain ⟨k, i⟩ := c
      intro txdb h hnd
      rw [nodupKeys_cons] at hnd
      rw [foldl_cons, ih _ _ hnd.2, view_updateTxIndex]
      by_cases hh : h = k
      · subst hh
        rw [dlookup_eq_none.2 hnd.1]
        simp
      · rw [dlookup_cons_ne _ _ hh, update_of_ne hh]
  funext h
  exact key q.entries txdb h q.nodupKeys

/-- Nothing has reached the store while a batch is open. -/
def BatchOnly (txdb txdb' : CTxDB) : Prop :=
  txdb.activeBatch.isSome → txdb'.pdb = txdb.pdb ∧ txdb'.activeBatch.isSome

theorem BatchOnly.refl (txdb : CTxDB) : BatchOnly txdb txdb := fun h => ⟨rfl, h⟩

theorem BatchOnly.trans {a b c : CTxDB} (h1 : BatchOnly a b) (h2 : BatchOnly b c) :
    BatchOnly a c := fun h =>
  let ⟨e1, s1⟩ := h1 h
  let ⟨e2, s2⟩ := h2 s1
  ⟨e2.trans e1, s2⟩

instance : IsPreorder CTxDB BatchOnly where
  refl := .refl
  trans _ _ _ := .trans

theorem BatchOnly.write (txdb : CTxDB) (k : DbKey) (v : k.Val) : BatchOnly txdb (txdb.write k v) :=
  fun h => Store.Db.write_pdb h k v

theorem BatchOnly.erase (txdb : CTxDB) (k : DbKey) : BatchOnly txdb (txdb.erase k) :=
  fun h => Store.Db.erase_pdb h k

theorem BatchOnly.writeHashNext (prev : Option CBlockIndex) (hashNext : Uint256) :
    BatchOnly txdb (writeHashNext E prev hashNext txdb) := by
  cases prev with
  | none => exact .refl _
  | some d => exact .write _ _ _

theorem BatchOnly.flushQueue (q : MapTxIndex) : BatchOnly txdb (flushQueue q txdb) := by
  unfold Espers.flushQueue
  generalize q.entries = l
  induction l generalizing txdb with
  | nil => exact .refl _
  | cons c l ih => exact .trans (.write txdb (.tx c.1) c.2) ih

end Database

/-! ### What block operations leave alone -/

/-- The entry without the two fields that `ConnectBlock` sets. -/
def CBlockIndex.skeleton (e : CBlockIndex) : CBlockIndex := { e with nMint := 0, nMoneySupply := 0 }

/-- What connecting and disconnecting blocks leaves alone; the database may change as `D` says, and
only entries of `M` may get another mint and money supply. -/
structure Frame (D : CTxDB → CTxDB → Prop) (M : Set Uint256) (w w' : World) : Prop where
  skeleton : ∀ p, (w'.mapBlockIndex.lookup p).map CBlockIndex.skeleton =
    (w.mapBlockIndex.lookup p).map CBlockIndex.skeleton
  untouched : ∀ p ∉ M, w'.mapBlockIndex.lookup p = w.mapBlockIndex.lookup p
  stakeSeen : w'.setStakeSeen = w.setStakeSeen
  genesis : w'.pindexGenesisBlock = w.pindexGenesisBlock
  best : w'.pindexBest = w.pindexBest
  hashBest : w'.hashBestChain = w.hashBestChain
  bestHeight : w'.nBestHeight = w.nBestHeight
  bestTrust : w'.nBestChainTrust = w.nBestChainTrust
  pool : w'.mempool = w.mempool
  files : w'.files = w.files
  db : D w.txdb w'.txdb
  log : ∃ events, w'.walletLog = w.walletLog ++ events
  limits : LimitsKept w w'
  rollback : w'.fRollbacktoBlock = true → w.fRollbacktoBlock = true
  cache : ∀ S, LinkClosed w S → (∀ p, w.pblockindexFBBHLast = some p → p ∈ S) →
    ∀ p, w'.pblockindexFBBHLast = some p → p ∈ S

theorem skeleton_lookup {m m' : BlockMap} {p : Uint256}
    (h : (m'.lookup p).map CBlockIndex.skeleton = (m.lookup p).map CBlockIndex.skeleton)
    {e' : CBlockIndex} (he : m'.lookup p = some e') :
    ∃ e, m.lookup p = some e ∧ e'.skeleton = e.skeleton := by
  rw [he, Option.map_some] at h
  obtain ⟨e, hm, hs⟩ := Option.map_eq_some_iff.1 h.symm
  exact ⟨e, hm, hs.symm⟩

namespace Frame

variable {D : CTxDB → CTxDB → Prop} {M : Set Uint256} {w w' : World} {S : Set Uint256}

theorem linkClosed (h : Frame D M w w') (hS : LinkClosed w S) : LinkClosed w' S := by
  refine ⟨?_, ?_, ?_, ?_⟩
  · rw [h.genesis]; exact hS.genesis
  · rw [h.best]; exact hS.best
  · intro p e' q hp he hq
    obtain ⟨e, hl, hs⟩ := skeleton_lookup (h.skeleton p) he
    exact hS.prev p e q hp hl ((congrArg CBlockIndex.pprev hs).symm.trans hq)
  · intro p e' q hp he hq
    obtain ⟨e, hl, hs⟩ := skeleton_lookup (h.skeleton p) he
    exact hS.next p e q hp hl ((congrArg CBlockIndex.pnext hs).symm.trans hq)

theorem of_txdb {txdb : CTxDB} {events : List SyncEvent} (h : D w.txdb txdb) :
    Frame D M w { w with txdb := txdb, walletLog := w.walletLog ++ events } :=
  ⟨fun _ => rfl, fun _ _ => rfl, rfl, rfl, rfl, rfl, rfl, rfl, rfl, rfl, h, ⟨events, rfl⟩,
    fun _ => ⟨rfl, rfl⟩, id, fun _ _ h => h⟩

theorem of_db {txdb : CTxDB} (h : D w.txdb txdb) : Frame D M w { w with txdb := txdb } := by
  have h1 : Frame D M w { w with txdb := txdb, walletLog := w.walletLog ++ [] } := of_txdb h
  simpa using h1

theorem of_modifyDb {f : CTxDB → CTxDB} (h : ∀ txdb, D txdb (f txdb)) :
    Keeps (Frame D M) (modifyDb f) := fun w => of_db (h w.txdb)

theorem mono {D' : CTxDB → CTxDB → Prop} {M' : Set Uint256} (h : Frame D M w w')
    (hD : D w.txdb w'.txdb → D' w.txdb w'.txdb) (hM : M ⊆ M') : Frame D' M' w w' :=
  { h with db := hD h.db, untouched := fun p hp => h.untouched p fun hm => hp (hM hm) }

variable [IsPreorder CTxDB D]

instance : IsPreorder World (Frame D M) where
  refl w := of_db (w := w) (Std.Refl.refl w.txdb)
  trans a b c h1 h2 := by
    obtain ⟨ev1, hev1⟩ := h1.log
    obtain ⟨ev2, hev2⟩ := h2.log
    exact {
      skeleton := fun p => (h2.skeleton p).trans (h1.skeleton p)
      untouched := fun p hp => (h2.untouched p hp).trans (h1.untouched p hp)
      stakeSeen := h2.stakeSeen.trans h1.stakeSeen
      genesis := h2.genesis.trans h1.genesis
      best := h2.best.trans h1.best
      hashBest := h2.hashBest.trans h1.hashBest
      bestHeight := h2.bestHeight.trans h1.bestHeight
      bestTrust := h2.bestTrust.trans h1.bestTrust
      pool := h2.pool.trans h1.pool
      files := h2.files.trans h1.files
      db := IsTrans.trans _ _ _ h1.db h2.db
      log := ⟨ev1 ++ ev2, by rw [hev2, hev1, append_assoc]⟩
      limits := fun h =>
        let ⟨hs, ho⟩ := h1.limits h
        let ⟨hs', ho'⟩ := h2.limits (h1.bestHeight ▸ h)
        ⟨hs'.trans hs, ho'.trans ho⟩
      rollback := fun h => h1.rollback (h2.rollback h)
      cache := fun S hS hlast => h2.cache S (h1.linkClosed hS) (h1.cache S hS hlast) }

theorem of_sizesOnly (h : SizesOnly w w') : Frame D M w w' := by
  have hc := h.cache
  have hl := h.limits
  rw [h.eq] at hc hl ⊢
  exact ⟨fun _ => rfl, fun _ _ => rfl, rfl, rfl, rfl, rfl, rfl, rfl, rfl, rfl,
    Std.Refl.refl w.txdb, ⟨[], by simp⟩, hl, id, hc⟩

end Frame

section Keeps

variable {E : Env} {ctx : Ctx} {block : CBlock} {p : Uint256} {M : Set Uint256}

theorem derefPrev_keeps {R : World → World → Prop} [IsPreorder World R] (e : CBlockIndex) :
    Keeps R (derefPrev e) := by
  unfold derefPrev
  split
  · exact .pure _
  · exact .bind (deref_keeps _) fun d => .pure _

theorem bestIndex_keeps {R : World → World → Prop} [IsPreorder World R] : Keeps R bestIndex :=
  Keeps.bind Keeps.get fun _ => deref_keeps _

theorem relinquish_keeps (vin : List CTxIn) : Keeps (Frame BatchOnly M) (relinquish vin) := by
  induction vin with
  | nil => exact .pure _
  | cons txin vin ih =>
    refine .bind Keeps.get fun w => ?_
    split
    · exact .throw _
    · refine .ite (.throw _) (.bind (.of_modifyDb fun txdb => ?_) fun _ => ih)
      exact .write _ _ _

theorem disconnectInputs_keeps (tx : CTransaction) :
    Keeps (Frame BatchOnly M) (disconnectInputs E tx) :=
  Keeps.bind (relinquish_keeps _) fun _ => .of_modifyDb fun _ => .erase _ _

theorem disconnectTransactions_keeps (vtx : List CTransaction) :
    Keeps (Frame BatchOnly M) (disconnectTransactions E vtx) := by
  induction vtx with
  | nil => exact .pure _
  | cons tx vtx ih => exact .bind (disconnectInputs_keeps tx) fun _ => ih

theorem disconnectBlock_keeps : Keeps (Frame BatchOnly M) (disconnectBlock E block p) := by
  refine .bind (disconnectTransactions_keeps _) fun _ => .bind (deref_keeps _) fun e =>
    Keeps.bind (derefPrev_keeps e) fun prev => .modify fun w => ?_
  exact .of_txdb (.writeHashNext _ _)

theorem checkConnect_keeps : Keeps SizesOnly (checkConnect E ctx block p) := by
  refine .bind bestIndex_keeps fun best => .bind Keeps.get fun w =>
    Keeps.bind (.lift _) fun _ => .bind (updateBlockSize_keeps p) fun _ =>
    Keeps.bind (deref_keeps _) fun e => .bind Keeps.get fun w =>
    Keeps.bind (.lift _) fun t => .bind (.lift _) fun nReward =>
    Keeps.bind (.lift _) fun _ => .bind (derefPrev_keeps e) fun prev => .pure _

end Keeps

/-! ### What a connected block satisfies -/

variable {w w' : World} {e : CBlockIndex}

theorem deref_eq_ok {p : Option Uint256} :
    deref p w = .ok e w' ↔ (p.bind fun hash => w.mapBlockIndex.lookup hash) = some e ∧ w' = w := by
  unfold deref
  rw [get_bind_apply]
  cases h : (p.bind fun hash => w.mapBlockIndex.lookup hash) with
  | none => simp
  | some d => simp [eq_comm]

theorem bestIndex_eq_ok : bestIndex w = .ok e w' ↔
      (w.pindexBest.bind fun hash => w.mapBlockIndex.lookup hash) = some e ∧ w' = w := by
  exact deref_eq_ok

theorem derefPrev_eq_ok {prev : Option CBlockIndex} :
    derefPrev e w = .ok prev w' ↔ prev = e.pprev.bind (fun q => w.mapBlockIndex.lookup q) ∧
      (e.pprev.isSome → prev.isSome) ∧ w' = w := by
  unfold derefPrev
  cases e.pprev with
  | none =>
    simp only [pure_apply, Result.ok.injEq, Option.isSome_none,
      Bool.false_eq_true, false_implies, true_and]
    exact ⟨fun h => ⟨h.1.symm, h.2.symm⟩, fun h => ⟨h.1.symm, h.2.symm⟩⟩
  | some q =>
    simp only [bind_eq_ok, deref_eq_ok, pure_apply, Result.ok.injEq]
    constructor
    · rintro ⟨d, w1, ⟨hd, rfl⟩, rfl, rfl⟩
      simp [hd]
    · rintro ⟨hp, hs, rfl⟩
      obtain ⟨d, rfl⟩ := Option.isSome_iff_exists.1 (hs rfl)
      exact ⟨d, w', ⟨hp.symm, rfl⟩, rfl, rfl⟩

/-- A successful run of `ConnectBlock`, from `w` to `w'`. -/
structure ConnectTrace (E : Env) (ctx : Ctx) (block : CBlock) (p : Uint256) (w w' : World) where
  best : CBlockIndex
  e : CBlockIndex
  prev : Option CBlockIndex
  t : BlockTally
  nReward : ℤ
  /-- The state once the size limits are set. -/
  mid : World
  best_eq : (w.pindexBest.bind fun hash => w.mapBlockIndex.lookup hash) = some best
  sane : BlockSane E block
  sizes : SizesOnly w mid
  entry : w.mapBlockIndex.lookup p = some e
  prev_eq : prev = e.pprev.bind fun q => w.mapBlockIndex.lookup q
  prev_some : e.pprev.isSome → prev.isSome
  txs : connectTransactions E mid ctx p e (blockFlags E block.nTime)
    (.init (firstTxPos e.nBlockPos block)) block.vtx = .ok t
  reward : checkReward E mid ctx block e best t = .ok nReward
  balance : t.nValueOut ≤ add64 t.nValueIn nReward
  final : w' = mid.recordConnected E block p e prev t

theorem connectBlock_spec {E : Env} {ctx : Ctx} {block : CBlock} {p : Uint256}
    {u : Unit} (h : connectBlock E ctx block p w = .ok u w') :
    Nonempty (ConnectTrace E ctx block p w w') := by
  simp only [connectBlock, checkConnect, bestIndex, bind_eq_ok, lift_eq_ok, deref_eq_ok,
    derefPrev_eq_ok, rejectIf_eq_ok, pure_apply, modify_apply, Result.ok.injEq,
    not_lt] at h
  obtain ⟨_, _, ⟨best, _, ⟨_, _, ⟨rfl, rfl⟩, hbest, rfl⟩, w0, _, ⟨rfl, rfl⟩, _, _, ⟨hchk, rfl⟩, _,
    mid, hsize, e, _, ⟨he, rfl⟩, _, _, ⟨rfl, rfl⟩, t, _, ⟨htxs, rfl⟩, nReward, _, ⟨hrew, rfl⟩, _, _,
    ⟨hbal, rfl⟩, prev, mid, ⟨hprev, hsome, rfl⟩, rfl, rfl⟩, -, hfinal⟩ := h
  have hs := (updateBlockSize_keeps p).ok hsize
  rw [hs.index] at he hprev
  exact ⟨⟨best, e, prev, t, nReward, mid, hbest, checkBlock_spec hchk, hs, he, hprev, hsome, htxs,
    hrew, hbal, hfinal.symm⟩⟩

namespace ConnectTrace

variable {E : Env} {ctx : Ctx} {block : CBlock} {p : Uint256} {w w' : World} {M : Set Uint256}

section

variable (c : ConnectTrace E ctx block p w w')
include c

theorem mid_txdb : c.mid.txdb = w.txdb :=
  c.sizes.txdb

theorem mid_index : c.mid.mapBlockIndex = w.mapBlockIndex := c.sizes.index

theorem mid_files : c.mid.files = w.files := c.sizes.files

theorem tallied : Tallied E c.mid c.e block.vtx (.init (firstTxPos c.e.nBlockPos block)) c.t :=
  connectTransactions_spec c.sane c.txs

theorem view : w'.txdb.view =
      connectTxs E c.e (firstTxPos c.e.nBlockPos block) block.vtx w.txdb.view := by
  have h := c.tallied.view
  have hdb := congrArg (fun w : World => w.txdb.view) c.final
  simp only [World.recordConnected, view_writeHashNext, view_flushQueue,
    view_writeBlockIndex] at hdb
  rw [hdb, h, c.mid_txdb]
  simp [BlockTally.init]

theorem spendable : AllSpendable E c.e (firstTxPos c.e.nBlockPos block) block.vtx w.txdb.view := by
  have h := c.tallied.spendable
  rw [c.mid_txdb] at h
  simpa [BlockTally.init] using h

theorem values :
    c.t.nValueIn = totalIn w.files.diskTx E c.e (firstTxPos c.e.nBlockPos block) block.vtx
        w.txdb.view ∧
      c.t.nValueOut = totalOut block.vtx ∧ c.t.InRange := by
  have h := c.tallied
  refine ⟨?_, ?_, h.range⟩
  · have := h.valueIn
    rw [c.mid_txdb, c.mid_files] at this
    simpa [BlockTally.init] using this
  · simpa [BlockTally.init] using h.valueOut

theorem entry' : w'.mapBlockIndex.lookup p = some (c.e.minted c.prev c.t) := by
  have h := congrArg (fun w : World => w.mapBlockIndex.lookup p) c.final
  simpa [World.recordConnected] using h

theorem log : w'.walletLog = w.walletLog ++ syncBlock block true := by
  have h := congrArg World.walletLog c.final
  have hmid : c.mid.walletLog = w.walletLog := by rw [c.sizes.eq]
  rw [h, ← hmid]
  rfl

end

theorem frame_recordConnected {e : CBlockIndex} (prev : Option CBlockIndex) (t : BlockTally)
    (he : w.mapBlockIndex.lookup p = some e) (hp : p ∈ M) :
    Frame BatchOnly M w (w.recordConnected E block p e prev t) := by
  refine ⟨fun q => ?_, fun q hq => ?_, rfl, rfl, rfl, rfl, rfl, rfl, rfl, rfl, ?_, ⟨_, rfl⟩,
    fun _ => ⟨rfl, rfl⟩, id, fun _ _ h => h⟩
  · by_cases hqp : q = p
    · subst hqp
      simp [World.recordConnected, he, CBlockIndex.skeleton, CBlockIndex.minted]
    · simp [World.recordConnected, lookup_insert_ne hqp]
  · have hqp : q ≠ p := fun h => hq (h ▸ hp)
    simp [World.recordConnected, lookup_insert_ne hqp]
  · exact (BatchOnly.write _ _ _).trans ((BatchOnly.flushQueue _).trans (.writeHashNext _ _))

theorem frame (c : ConnectTrace E ctx block p w w') (hp : p ∈ M) : Frame BatchOnly M w w' := by
  have he : c.mid.mapBlockIndex.lookup p = some c.e := by rw [c.mid_index]; exact c.entry
  have h : Frame BatchOnly M c.mid (c.mid.recordConnected E block p c.e c.prev c.t) :=
    frame_recordConnected c.prev c.t he hp
  rw [← c.final] at h
  exact IsTrans.trans _ _ _ (Frame.of_sizesOnly c.sizes) h

end ConnectTrace

theorem connectBlock_keeps {E : Env} {ctx : Ctx} {block : CBlock} {p : Uint256} {M : Set Uint256}
    (hp : p ∈ M) : Keeps (Frame BatchOnly M) (connectBlock E ctx block p) := by
  intro w
  cases h : connectBlock E ctx block p w with
  | ok u w' =>
    obtain ⟨c⟩ := connectBlock_spec h
    exact c.frame hp
  | error e w' =>
    rw [connectBlock, bind_eq_error] at h
    rcases h with h | ⟨⟨e, prev, t⟩, w1, -, h⟩
    · exact .of_sizesOnly (checkConnect_keeps.error h)
    · simp at h

end Espers
