import Espers.Chain.Simnet
import Espers.Miner.Bounds
import Mathlib.Algebra.Group.Action.Defs

/-!
# Templates and the limits of the validator

`CheckBlock` and `ConnectBlock` test a block against the limits of `main.cpp`, which `ConnectBlock`
sets at every block; a template is built against the limits of `miner.cpp`, which nobody sets.

* `createNewBlock_within_iff` : **every template passes the limits of the validator exactly when
  these are at least the largest size and count a template can reach.**
* `createNewBlock_exceeds` : a node with the smallest limits and the default arguments builds a
  template that it will not accept.

The templates that reach the bounds are built from a pool whose transactions draw on the outputs of
one transaction, the bank (`bankWorld`); all of them get into the template (`assemble_draws`).
-/

namespace Espers

open Exec Function AList Bool Nat
open List hiding Vector

namespace Simnet

/-! ### A bank -/

/-- Signature operations are counted as in the source. -/
def countingEnv : Env := { env with
  getLegacySigOpCount := Espers.getLegacySigOpCount
  getP2SHSigOpCount := Espers.getP2SHSigOpCount
  testNet := true }

/-- A transaction with `n` outputs of `v`; its hash is 1. -/
def bankTx (n : ℕ) (v : ℤ) : CTransaction where
  nVersion := 1
  nTime := 1
  vin := [⟨⟨7, 0⟩, [], uintMax⟩]
  vout := replicate n ⟨v, [0x51]⟩
  nLockTime := 0

theorem null_bankPos : 1 = uintMax → 8 = 0 ∧ 89 = 0 := by decide

/-- The block of the bank, and where the bank lies. -/
def bankBlock (n : ℕ) (v : ℤ) : CBlock := ⟨⟨7, 0, 0, 1, 0x207fffff, 0⟩, [bankTx n v], []⟩
def bankPos : CDiskTxPos := ⟨1, 8, 89, null_bankPos⟩

/-- The entry of the block, at a height where the limits are set at every block. -/
def bankEntry : CBlockIndex :=
  { linkEntry 1 none 700000 with nBlockPos := 8, nTime := 1, nBits := 0x207fffff }

/-- The transaction that takes output `i` of the bank for fees; its hash is `i + 2`. -/
def drawTx (i : ℕ) (script : CScript) : CTransaction where
  nVersion := 1
  nTime := i + 2
  vin := [⟨⟨1, i⟩, [], uintMax⟩]
  vout := [⟨0, script⟩]
  nLockTime := 0

/-- A pool of `n` such transactions. -/
def drawPool (s : ℕ → CScript) : ℕ → CTxMemPool
  | 0 => ⟨∅, ∅, 0⟩
  | n + 1 => (drawPool s n).addUnchecked (BitVec.ofNat 256 (n + 2)) (drawTx n (s n))

/-- A node with the bank on disk and the pool in memory. -/
def bankWorld (n : ℕ) (v : ℤ) (s : ℕ → CScript) : World := { emptyWorld with
  mapBlockIndex := AList.insert 1 bankEntry ∅
  pindexGenesisBlock := some 1
  pindexBest := some 1
  hashBestChain := 1
  nBestHeight := 700000
  maxBlockSize := 1500000
  maxBlockSigops := 30000
  maxTxSigops := 6000
  mempool := drawPool s n
  txdb := ⟨AList.insert (.tx 1) (CTxIndex.ofOutputs bankPos n : DbKey.Val (.tx 1)) ∅, none⟩
  files := ⟨1, [⟨1, 8, bankBlock n v⟩]⟩ }

theorem countingEnv_counts : countingEnv.CountsSigOps := ⟨rfl, rfl⟩

section Draws

variable {n i : ℕ} {v : ℤ} {s : ℕ → CScript} {script : CScript}

theorem drawTx_size (i : ℕ) (script : CScript) :
    (drawTx i script).getSerializeSize = 63 + sizeOfBytes script := by
  have hnil : sizeOfBytes [] = 1 := rfl
  have hone : getSizeOfCompactSize 1 = 1 := rfl
  simp only [drawTx, CTransaction.getSerializeSize, CTxIn.getSerializeSize, CTxOut.getSerializeSize,
    map_cons, map_nil, sum_cons, sum_nil, length_cons,
    length_nil, hone]
  omega

theorem drawTx_inj {i j : ℕ} {a b : CScript} (h : drawTx i a = drawTx j b) : i = j := by
  have := congrArg CTransaction.nTime h
  simpa [drawTx] using this

theorem drawTx_legacy (i : ℕ) (script : CScript) :
    Espers.getLegacySigOpCount (drawTx i script) = getSigOpCount false script := by
  simp [Espers.getLegacySigOpCount, drawTx, getSigOpCount_nil]

theorem bank_readTxIndex : CTxDB.readTxIndex (bankWorld n v s).txdb.fresh 1 =
    some (.ofOutputs bankPos n) := by
  rw [CTxDB.readTxIndex, Store.Db.read_of_noBatch rfl]
  exact lookup_insert _

theorem bank_read : (bankWorld n v s).readTxFromDisk (context false false) bankPos =
    some (bankTx n v) := by
  rfl

/-- The transactions of the pool. -/
theorem poolTxs_bankWorld (hn : n < 2 ^ 32) :
    (poolTxs (bankWorld n v s)).Perm ((range n).map fun i => drawTx i (s i)) := by
  have hentries : ∀ k ≤ n, (drawPool s k).mapTx.entries.map (fun x => x.2) =
      ((range k).map fun i => drawTx i (s i)).reverse ∧
      ∀ h ∈ (drawPool s k).mapTx, ∃ i < k, h = BitVec.ofNat 256 (i + 2) := by
    intro k hk
    induction k with
    | zero => exact ⟨rfl, fun h hh => absurd hh (notMem_empty h)⟩
    | succ k ih =>
      obtain ⟨hlist, hkeys⟩ := ih (by omega)
      -- the hash of the next transaction is a new one
      have hnew : BitVec.ofNat 256 (k + 2) ∉ (drawPool s k).mapTx := by
        intro hmem
        obtain ⟨i, hi, heq⟩ := hkeys _ hmem
        have := congrArg BitVec.toNat heq
        simp only [BitVec.toNat_ofNat] at this
        omega
      constructor
      · rw [drawPool, CTxMemPool.addUnchecked, entries_insert_of_notMem hnew, map_cons,
          hlist, range_succ, map_append, reverse_append]
        rfl
      · intro h hh
        rcases (mem_insert _).1 hh with rfl | hh
        · exact ⟨k, by omega, rfl⟩
        · obtain ⟨i, hi, heq⟩ := hkeys h hh
          exact ⟨i, by omega, heq⟩
  have hperm : (poolTxs (bankWorld n v s)).Perm
      ((drawPool s n).mapTx.entries.map fun x => x.2) :=
    (mergeSort_perm _ _).map _
  rw [(hentries n le_rfl).1] at hperm
  exact hperm.trans (reverse_perm _)

theorem drawTx_vin : (drawTx i script).vin = [⟨⟨1, i⟩, [], uintMax⟩] := rfl

theorem drawTx_not_coinBase : (drawTx i script).isCoinBase = false := rfl

theorem drawTx_not_coinStake : (drawTx i script).isCoinStake = false := rfl

theorem drawTx_getValueOut : (drawTx i script).getValueOut = .ok 0 := by
  simp [CTransaction.getValueOut, drawTx, sumValues, add64, wrap64, moneyRange, maxSingleTx, coin]

/-- The entry of such a transaction in the queue. -/
def drawEntry (n : ℕ) (v : ℤ) (s : ℕ → CScript) (tx : CTransaction) : TxPriority where
  dPriority := ((Binary64.fin 0).add
    ((Binary64.ofRat v).mul (.ofRat (getDepthInMainChain countingEnv (bankWorld n v s)
    (.ofOutputs bankPos n))))).div (.ofNat tx.getSerializeSize)
  dFeePerKb := (Binary64.ofRat (sub64 (add64 0 v) 0 : ℤ)).div
    ((Binary64.ofNat tx.getSerializeSize).div (.ofNat 1000))
  tx := tx

/-- All the transactions go into the queue. -/
theorem collect_draws (nHeight : ℕ) {txs : List CTransaction} (q : List TxPriority) (o : Orphans)
    (htxs : ∀ tx ∈ txs, ∃ i < n, ∃ script, tx = drawTx i script) :
    collect countingEnv (context false false) (bankWorld n v s) nHeight txs q o =
      .ok (q ++ txs.map (drawEntry n v s), o) := by
  induction txs generalizing q with
  | nil => simp [collect]
  | cons tx txs ih =>
    obtain ⟨i, hi, script, rfl⟩ := htxs tx mem_cons_self
    have hread : readPrevTx (bankWorld n v s) (context false false)
      (bankWorld n v s).txdb.fresh ⟨1, i⟩ = some (.ofOutputs bankPos n, bankTx n v) := by
      rw [readPrevTx, bank_readTxIndex, Option.bind_some, CTxIndex.ofOutputs, bank_read,
        Option.bind_some, if_neg (by simpa [bankTx] using hi)]
    have hvalue : ((bankTx n v).vout.getD i default).nValue = v := by
      simp [bankTx, hi]
    have hfinal : isFinalTx (drawTx i script) nHeight (context false false).getAdjustedTime.toNat =
        true := rfl
    rw [collect, if_neg (by simp [drawTx_not_coinBase, drawTx_not_coinStake, hfinal]),
      drawTx_vin, scanInputs, hread]
    simp only [scanInputs, hvalue, except_ok_bind, drawTx_getValueOut]
    rw [ih _ fun tx htx => htxs tx (mem_cons_of_mem _ htx), append_assoc,
      singleton_append, map_cons]
    rfl

/-! ### The inputs of a draw -/

/-- The record of the bank, from the pool of the template or from the database. -/
def bankRecord (n : ℕ) (q : MapTxIndex) : CTxIndex := (q.lookup 1).getD (.ofOutputs bankPos n)

/-- The outputs of the bank in `I` are unspent. -/
structure BankOpen (n : ℕ) (I : ℕ → Prop) (q : MapTxIndex) : Prop where
  pos : (bankRecord n q).pos = bankPos
  length : (bankRecord n q).vSpent.length = n
  unspent : ∀ i, I i → (bankRecord n q).vSpent.getD i .null = .null

theorem bankOpen_empty (n : ℕ) (I : ℕ → Prop) : BankOpen n I ∅ := by
  have hrec : bankRecord n ∅ = .ofOutputs bankPos n := rfl
  refine ⟨by rw [hrec]; rfl, by rw [hrec]; simp [CTxIndex.ofOutputs], fun i _ => ?_⟩
  rw [hrec, CTxIndex.ofOutputs, getD_eq_getElem?_getD, getElem?_replicate]
  split_ifs <;> rfl

/-- What `FetchInputs` finds for a draw. -/
def drawInputs (n : ℕ) (v : ℤ) (q : MapTxIndex) : MapPrevTx :=
  AList.insert 1 (bankRecord n q, bankTx n v) ∅

theorem drawInputs_lookup (n : ℕ) (v : ℤ) (q : MapTxIndex) :
    (drawInputs n v q).lookup 1 = some (bankRecord n q, bankTx n v) := lookup_insert _

theorem bankTx_output (hi : i < n) : (bankTx n v).vout[i]? = some ⟨v, [0x51]⟩ := by
  simp [bankTx, hi]

variable {I : ℕ → Prop} {q : MapTxIndex}

theorem fetchInputs_draw (hq : BankOpen n I q) (hi : i < n) :
    fetchInputs (bankWorld n v s) (context false false) (bankWorld n v s).txdb.fresh q true false
      (drawTx i script) = .ok (drawInputs n v q) := by
  have hfetch : fetchInput (bankWorld n v s) (context false false)
    (bankWorld n v s).txdb.fresh q true
      false 1 = .ok (bankRecord n q, bankTx n v) := by
    have hfound : (if true && (q.lookup 1).isSome then q.lookup 1
        else CTxDB.readTxIndex (bankWorld n v s).txdb.fresh 1) = some (bankRecord n q) := by
      rw [bank_readTxIndex, bankRecord]
      cases q.lookup 1 <;> rfl
    have hmem : (bankPos == CDiskTxPos.inMemory) = false := by decide
    unfold fetchInput
    simp only [hfound]
    simp [hq.pos, hmem, bank_read, rejectIf]
  have hlen : (bankTx n v).vout.length = n := by simp [bankTx]
  have hcheck : checkPrevouts (drawInputs n v q) (drawTx i script).vin = .ok () := by
    rw [drawTx_vin, checkPrevouts]
    simp only [drawInputs_lookup]
    rw [rejectIf_of_not (by rw [hlen, hq.length]; omega), except_ok_bind, checkPrevouts]
  have hloop : fetchLoop (bankWorld n v s) (context false false) (bankWorld n v s).txdb.fresh q true
      false (drawTx i script).vin ∅ = .ok (drawInputs n v q) := by
    rw [drawTx_vin, fetchLoop, if_neg (by simp)]
    simp only [hfetch]
    rfl
  rw [fetchInputs, drawTx_not_coinBase]
  simp only [false_eq_true, ↓reduceIte, hloop, hcheck, except_ok_bind]

theorem getOutputFor_draw (hi : i < n) :
    getOutputFor ⟨⟨1, i⟩, [], uintMax⟩ (drawInputs n v q) = .ok ⟨v, [0x51]⟩ := by
  simp only [getOutputFor, drawInputs_lookup, bankTx_output hi]

theorem getValueMapIn_draw (hi : i < n) (hv : 0 ≤ v) (hv' : v ≤ 5000000000000000000) :
    getValueMapIn (drawInputs n v q) (drawTx i script) = .ok v := by
  rw [getValueMapIn, drawTx_not_coinBase, drawTx_vin]
  simp only [false_eq_true, ↓reduceIte, sumInputs, getOutputFor_draw hi, except_ok_bind]
  rw [zero_add64 (x := v) (by omega) (by omega)]

theorem p2sh_draw (hi : i < n) :
    Espers.getP2SHSigOpCount (drawTx i script) (drawInputs n v q) = 0 := by
  rw [Espers.getP2SHSigOpCount, drawTx_not_coinBase, drawTx_vin]
  simp only [map_cons, getOutputFor_draw hi]
  rfl

/-- The outputs that are still unspent when output `i` has been drawn. -/
def drawnPool (n i : ℕ) (q : MapTxIndex) : MapTxIndex :=
  q.insert 1 ⟨(bankRecord n q).pos, (bankRecord n q).vSpent.set i .inMemory⟩

theorem connectInputs_draw (hq : BankOpen n I q) (hi : i < n) (hI : I i) (hv : 0 < v)
    (hv' : v ≤ 5000000000000000000) (flags : ℕ) :
    connectInputs countingEnv (bankWorld n v s) (drawTx i script) (drawInputs n v q) q .inMemory
      (some 1) false true flags = .ok (drawnPool n i q) := by
  have hmoney : moneyRange v = true := moneyRange_iff.2 ⟨hv.le, hv'⟩
  have hadd : add64 0 v = v := zero_add64 (by omega) (by omega)
  have hsub : sub64 v 0 = v := by
    rw [sub64, sub_zero, wrap64_of_range (by omega) (by omega)]
  have hempty : CTxOut.isEmpty ⟨v, [0x51]⟩ = false := by simp [CTxOut.isEmpty]
  have hmature : immature (bankWorld n v s).mapBlockIndex (some 1) (bankRecord n q) (bankTx n v) =
      false := by
    have hcb : (bankTx n v).isCoinBase = false := rfl
    have hcs : (bankTx n v).isCoinStake = false := by
      rcases n with _ | _ | n <;> simp [CTransaction.isCoinStake, bankTx, replicate_succ, hempty]
    rw [immature, hcb, hcs]
    rfl
  have htime : ¬ (bankTx n v).nTime > (drawTx i script).nTime := by
    simp [bankTx, drawTx]
  have hcheck : checkInputs countingEnv (bankWorld n v s).mapBlockIndex (some 1) (drawTx i script)
      (drawInputs n v q) 0 (drawTx i script).vin = .ok v := by
    rw [drawTx_vin, checkInputs]
    simp only [drawInputs_lookup, bankTx_output hi, hmature, hadd, hmoney, hempty]
    rw [rejectIf_of_not (by rw [hq.length]; omega), rejectIf_of_not (by simp),
      rejectIf_of_not htime, rejectIf_of_not (by simp), rejectIf_of_not (by simp)]
    rfl
  have hspend : spendInputs countingEnv (bankWorld n v s).nBestHeight (drawTx i script)
    .inMemory false
      true flags 0 (drawTx i script).vin (drawInputs n v q) q = .ok (drawnPool n i q) := by
    rw [drawTx_vin, spendInputs]
    simp only [drawInputs_lookup, hq.unspent i hI]
    rfl
  have hfees : checkFees (drawTx i script) v = .ok () := by
    rw [checkFees, drawTx_not_coinStake]
    simp only [drawTx_getValueOut, except_ok_bind, hsub, hmoney]
    rw [rejectIf_of_not (by omega), rejectIf_of_not (by omega), rejectIf_of_not (by simp)]
    rfl
  rw [connectInputs, drawTx_not_coinBase]
  simp only [false_eq_true, ↓reduceIte, hcheck, hspend, hfees, except_ok_bind]

theorem ofNat_draw_ne (hi : i < 2 ^ 32) : (1 : Uint256) ≠ BitVec.ofNat 256 (i + 2) := by
  intro h
  have := congrArg BitVec.toNat h
  rw [show (1 : Uint256).toNat = 1 from rfl, BitVec.toNat_ofNat] at this
  omega

theorem BankOpen.drawn (hq : BankOpen n I q) (hi : i < 2 ^ 32) (r : CTxIndex) :
    BankOpen n (fun j => I j ∧ j ≠ i) ((drawnPool n i q).insert (BitVec.ofNat 256 (i + 2)) r) := by
  have hrec : bankRecord n ((drawnPool n i q).insert (BitVec.ofNat 256 (i + 2)) r) =
      ⟨(bankRecord n q).pos, (bankRecord n q).vSpent.set i .inMemory⟩ := by
    rw [bankRecord, lookup_insert_ne (ofNat_draw_ne hi), drawnPool, lookup_insert, Option.getD_some]
  refine ⟨by rw [hrec]; exact hq.pos, by rw [hrec, length_set]; exact hq.length, fun j hj => ?_⟩
  have hold := hq.unspent j hj.1
  rw [hrec]
  rw [getD_eq_getElem?_getD] at hold ⊢
  rw [getElem?_set_ne (Ne.symm hj.2)]
  exact hold

/-! ### Every draw gets into the template -/

/-- The arguments let a draw of `v` through at any size of the block. -/
structure LetsThrough (args : MinerArgs) (n : ℕ) (v : ℤ) (s : ℕ → CScript) (tx : CTransaction) :
    Prop where
  fee : ∀ b, b < args.nBlockMaxSize → getMinFee b 0 ≤ v
  free : ∀ b, b + tx.getSerializeSize < args.nBlockMaxSize →
    b + tx.getSerializeSize < args.nBlockMinSize ∨
      (drawEntry n v s tx).dFeePerKb.lt (.ofRat args.mintxfee) = false

variable {args : MinerArgs} {heap : HeapLayout}

/-- One pass of the loop takes the draw. -/
theorem consider_draw {a : Assembly} (hq : BankOpen n I a.mapTestPool) (hi : i < n)
    (hn : n ≤ 2 ^ 20) (hI : I i) (hv : 0 < v) (hv' : v ≤ 5000000000000000000)
    (hthrough : LetsThrough args n v s (drawTx i script))
    (hsize : a.nBlockSize + (drawTx i script).getSerializeSize < args.nBlockMaxSize)
    (hops : a.nBlockSigOps + getSigOpCount false script < minerMaxBlockSigops)
    (horphans : a.orphans = ⟨[], 0, ∅⟩) :
    a.consider countingEnv (context false false) (bankWorld n v s) args false 1 10000000
        (drawEntry n v s (drawTx i script)) =
      .ok ((a.reorder args (drawEntry n v s (drawTx i script))).add countingEnv (drawTx i script)
        (getSigOpCount false script) v (drawnPool n i a.mapTestPool)) := by
  have htx : (drawEntry n v s (drawTx i script)).tx = drawTx i script := rfl
  have hlegacy : countingEnv.getLegacySigOpCount (drawTx i script) = getSigOpCount false script :=
    drawTx_legacy i script
  have hp2sh : countingEnv.getP2SHSigOpCount (drawTx i script)
    (drawInputs n v a.mapTestPool) = 0 := by
    rw [countingEnv_counts.p2sh]
    exact p2sh_draw hi
  have htime : ¬ ((drawTx i script).nTime : ℤ) > (context false false).getAdjustedTime := by
    simp only [drawTx, context]
    omega
  have hadmits : a.admits countingEnv (context false false) args false 10000000
      (drawEntry n v s (drawTx i script)) = true := by
    rw [Assembly.admits, htx, hlegacy, decide_eq_true hsize, decide_eq_true hops,
      decide_eq_false htime]
    rcases hthrough.free _ hsize with hmin | hfee
    · rw [decide_eq_false (by omega : ¬ a.nBlockSize + _ ≥ args.nBlockMinSize)]
      simp
    · rw [hfee]
      simp
  have hsub : sub64 v 0 = v := by
    rw [sub64, sub_zero, wrap64_of_range (by omega) (by omega)]
  have hpool : (a.reorder args (drawEntry n v s (drawTx i script))).mapTestPool = a.mapTestPool :=
    rfl
  have hfee : ¬ v < getMinFee (a.reorder args (drawEntry n v s (drawTx i script))).nBlockSize
    0 := by
    have := hthrough.fee a.nBlockSize (by omega)
    simpa [Assembly.reorder] using this
  have hlimit : ¬ (a.reorder args (drawEntry n v s (drawTx i script))).nBlockSigOps +
      getSigOpCount false script ≥ minerMaxBlockSigops := by
    simpa [Assembly.reorder] using hops
  have horphans' : (a.reorder args (drawEntry n v s (drawTx i script))).orphans = ⟨[], 0, ∅⟩ :=
    horphans
  rw [Assembly.consider, if_neg (by simp [hadmits])]
  simp only [htx, hpool, fetchInputs_draw hq hi, tolerate, except_ok_bind]
  rw [Assembly.connect, getValueMapIn_draw hi hv.le hv', except_ok_bind, drawTx_getValueOut,
    except_ok_bind]
  simp only [hsub, hlegacy, hp2sh, add_zero]
  rw [if_neg hfee, if_neg hlimit, hpool, connectInputs_draw hq hi hI hv hv']
  simp only [horphans']
  rfl

theorem drawEntry_inj {a b : CTransaction} (h : drawEntry n v s a = drawEntry n v s b) : a = b :=
  congrArg TxPriority.tx h

/-- The loop takes every draw that is in the queue. -/
theorem assemble_draws (args : MinerArgs) (heap : HeapLayout) (fuel : ℕ) {a : Assembly}
    (hn : n ≤ 2 ^ 20) (hv : 0 < v) (hv' : v ≤ 5000000000000000000)
    (hthrough : ∀ i < n, LetsThrough args n v s (drawTx i (s i)))
    (hqueue : ∀ t ∈ a.vecPriority, ∃ i < n, t = drawEntry n v s (drawTx i (s i)) ∧ I i)
    (hnodup : a.vecPriority.Nodup) (hopen : BankOpen n I a.mapTestPool)
    (hsize : a.nBlockSize + (a.vecPriority.map fun t => t.tx.getSerializeSize).sum <
      args.nBlockMaxSize)
    (hops : a.nBlockSigOps + (a.vecPriority.map fun t => Espers.getLegacySigOpCount t.tx).sum <
      minerMaxBlockSigops)
    (horphans : a.orphans = ⟨[], 0, ∅⟩) (hfuel : a.vecPriority.length ≤ fuel) :
    ∃ a', assemble countingEnv (context false false)
      (bankWorld n v s) args heap false 1 10000000 fuel a =
        .ok a' ∧ a'.vtx.Perm (a.vtx ++ a.vecPriority.map TxPriority.tx) := by
  induction fuel generalizing a I with
  | zero =>
    have hnil : a.vecPriority = [] := length_eq_zero_iff.1 (le_zero.1 hfuel)
    exact ⟨a, by rw [assemble, if_pos hnil], by simp [hnil]⟩
  | succ fuel ih =>
    cases hpop : heap.pop a.fSortedByFee a.vecPriority with
    | none =>
      have hnil := HeapLayout.pop_eq_none hpop
      exact ⟨a, by rw [assemble, hpop], by simp [hnil]⟩
    | some x =>
      obtain ⟨t, rest⟩ := x
      obtain ⟨hmem, rfl⟩ := HeapLayout.pop_eq_some hpop
      obtain ⟨i, hi, rfl, hI⟩ := hqueue t hmem
      have hperm := perm_cons_erase hmem
      -- the draw that is taken fits, and so do the others after it
      have hsizes := (hperm.map fun t => t.tx.getSerializeSize).sum_eq
      have hcounts := (hperm.map fun t => Espers.getLegacySigOpCount t.tx).sum_eq
      have htx : (drawEntry n v s (drawTx i (s i))).tx = drawTx i (s i) := rfl
      rw [map_cons, sum_cons, htx] at hsizes hcounts
      rw [drawTx_legacy] at hcounts
      have hstep := consider_draw (a := { a with
          vecPriority := a.vecPriority.erase (drawEntry n v s (drawTx i (s i))) })
        hopen hi hn hI hv hv' (hthrough i hi) (by simp only; omega) (by simp only; omega) horphans
      rw [assemble, hpop]
      simp only [hstep]
      obtain ⟨a', hrun, hvtx⟩ := ih (I := fun j => I j ∧ j ≠ i)
        (a := Assembly.add countingEnv (Assembly.reorder args { a with
            vecPriority := a.vecPriority.erase (drawEntry n v s (drawTx i (s i))) }
          (drawEntry n v s (drawTx i (s i)))) (drawTx i (s i)) (getSigOpCount false (s i)) v
          (drawnPool n i a.mapTestPool))
        (by
          intro u hu
          obtain ⟨hne, hu⟩ := (Nodup.mem_erase_iff hnodup).1 hu
          obtain ⟨j, hj, rfl, hJ⟩ := hqueue u hu
          exact ⟨j, hj, rfl, hJ, fun hji => hne (by rw [hji])⟩)
        (hnodup.erase _) (hopen.drawn (by omega) _)
        (by simp only [Assembly.add, Assembly.reorder]; omega)
        (by simp only [Assembly.add, Assembly.reorder]; omega) horphans
        (by
          simp only [Assembly.add, Assembly.reorder, length_erase_of_mem hmem]
          omega)
      refine ⟨a', hrun, hvtx.trans ?_⟩
      simp only [Assembly.add, append_assoc]
      exact ((hperm.map TxPriority.tx).symm).append_left a.vtx

/-! ### The template -/

/-- A key of the wallet. -/
def minerKey : Vector UInt8 20 := Vector.replicate 20 0

theorem sigOpsOn_draw (i : ℕ) (script : CScript) :
    sigOpsOn (bankWorld n v s).files.diskTx (bankWorld n v s).chainView (drawTx i script) =
      getSigOpCount false script := by
  have hview : (bankWorld n v s).chainView 1 = some (.ofOutputs bankPos n) :=
    bank_readTxIndex (v := v) (s := s)
  have hdisk : (bankWorld n v s).files.diskTx (CTxIndex.ofOutputs bankPos n).pos =
    some (bankTx n v) :=
    World.diskTx_of_read bank_read
  rw [sigOpsOn, drawTx_legacy, drawTx_not_coinBase, drawTx_vin]
  simp only [map_cons, prevOutput, hview, Option.bind_some, hdisk]
  -- the outputs of the bank are not hashes of scripts
  by_cases hi : i < n
  · rw [bankTx_output hi]
    rfl
  · rw [getElem?_eq_none (by simpa [bankTx] using hi)]
    rfl

/-- The template made from the pool holds all of it. -/
theorem createNewBlock_draws (heap : HeapLayout) (hn : n ≤ 2 ^ 20) (hv : 0 < v)
    (hv' : v ≤ 5000000000000000000)
    (hthrough : ∀ i < n, LetsThrough args n v s (drawTx i (s i)))
    (hsize : 1000 + ((range n).map fun i => 63 + sizeOfBytes (s i)).sum < args.nBlockMaxSize)
    (hops : 100 + ((range n).map fun i =>
    getSigOpCount false (s i)).sum < minerMaxBlockSigops) :
    ∃ T, createNewBlock countingEnv (context false false) args heap (bankWorld n v s) false
        (some minerKey) = .ok T ∧
      T.pblock.getSerializeSize = 170 + getSizeOfCompactSize (n + 1) +
        ((range n).map fun i => 63 + sizeOfBytes (s i)).sum ∧
      T.pblock.sigOps (bankWorld n v s) =
        1 + ((range n).map fun i => getSigOpCount false (s i)).sum := by
  have hpool := poolTxs_bankWorld (n := n) (v := v) (s := s) (by omega)
  have hmem : ∀ tx ∈ poolTxs (bankWorld n v s), ∃ i < n, tx = drawTx i (s i) := by
    intro tx htx
    obtain ⟨i, hi, rfl⟩ := mem_map.1 (hpool.subset htx)
    exact ⟨i, mem_range.1 hi, rfl⟩
  have hcollect := collect_draws (n := n) (v := v) (s := s) 700001 [] ⟨[], 0, ∅⟩
    fun tx htx => by
      obtain ⟨i, hi, rfl⟩ := hmem tx htx
      exact ⟨i, hi, s i, rfl⟩
  have hrange : ∀ f : CTransaction → ℕ, ((poolTxs (bankWorld n v s)).map f).sum =
      ((range n).map fun i => f (drawTx i (s i))).sum := by
    intro f
    rw [(hpool.map f).sum_eq, map_map]
    rfl
  have hnodup : (poolTxs (bankWorld n v s)).Nodup := by
    rw [hpool.nodup_iff]
    exact nodup_range.map_on fun i _ j _ h => drawTx_inj h
  obtain ⟨a, hrun, hvtx⟩ := assemble_draws (n := n) (v := v) (s := s) (I := fun _ => True)
    args heap (poolTxs (bankWorld n v s)).length
    (a := .init args ((poolTxs (bankWorld n v s)).map (drawEntry n v s)) ⟨[], 0, ∅⟩)
    hn hv hv' hthrough
    (by
      intro t ht
      obtain ⟨tx, htx, rfl⟩ := mem_map.1 ht
      obtain ⟨i, hi, rfl⟩ := hmem tx htx
      exact ⟨i, hi, rfl, trivial⟩)
    (hnodup.map fun a b h => drawEntry_inj h) (bankOpen_empty n _)
    (by
      have := hrange CTransaction.getSerializeSize
      simp only [drawTx_size] at this
      simpa [Assembly.init, comp_def, drawEntry, this] using hsize)
    (by
      have := hrange Espers.getLegacySigOpCount
      simp only [drawTx_legacy] at this
      simpa [Assembly.init, comp_def, drawEntry, this] using hops)
    rfl (by simp [Assembly.init])
  have hvtx' : a.vtx.Perm ((range n).map fun i => drawTx i (s i)) := by
    refine (hvtx.trans ?_).trans hpool
    simp [Assembly.init, comp_def, drawEntry]
  refine ⟨fillTemplate (context false false) false 1 bankEntry 700001 0x207fffff
    (newCoinBase (context false false) 700001 (some minerKey)) a, ?_, ?_, ?_⟩
  · have hbest : (bankWorld n v s).pindexBest = some 1 := rfl
    have hentry : (bankWorld n v s).mapBlockIndex.lookup 1 = some bankEntry := lookup_insert _
    have hheight : bankEntry.nHeight + 1 = 700001 := rfl
    have htime : (newCoinBase (context false false) 700001 (some minerKey)).nTime = 10000000 := rfl
    have hfuel : (poolTxs (bankWorld n v s)).length =
        ((poolTxs (bankWorld n v s)).map (drawEntry n v s)).length + ([] :
        List (ℕ × COrphan)).length := by
      simp
    rw [createNewBlock]
    simp only [hbest, hentry, hheight]
    have hbits : (context false false).getNextTargetRequired 1 false = .ok 0x207fffff := rfl
    rw [rejectIf_of_not (by norm_num), except_ok_bind, rejectIf_of_not (by simp), except_ok_bind,
      hbits, except_ok_bind, hcollect, except_ok_bind]
    simp only [false_eq_true, ↓reduceIte, htime, nil_append]
    rw [← hfuel, hrun]
    rfl
  · have hsum : (a.vtx.map CTransaction.getSerializeSize).sum =
        ((range n).map fun i => 63 + sizeOfBytes (s i)).sum := by
      rw [(hvtx'.map _).sum_eq, map_map]
      simp only [comp_def, drawTx_size]
    have hlen : a.vtx.length = n := by simpa using hvtx'.length_eq
    have hcb : ((newCoinBase (context false false) 700001 (some minerKey)).paying
        (getProofOfWorkReward bankEntry.nMoneySupply (700001 : ℕ) a.nFees)).getSerializeSize = 89 :=
      newCoinBase_key_size minerKey 700001 _
    have hnil : sizeOfBytes [] = 1 := rfl
    simp only [CBlock.getSerializeSize, fillTemplate, false_eq_true, ↓reduceIte, map_cons,
      sum_cons, length_cons, hlen, headerSize]
    omega
  · have hsum : (a.vtx.map
      (sigOpsOn (bankWorld n v s).files.diskTx (bankWorld n v s).chainView)).sum =
        ((range n).map fun i => getSigOpCount false (s i)).sum := by
      rw [(hvtx'.map _).sum_eq, map_map]
      simp only [comp_def, sigOpsOn_draw]
    simp only [CBlock.sigOps, fillTemplate, false_eq_true, ↓reduceIte, map_cons, sum_cons, hsum]
    rw [newCoinBase_key_sigOps]

end Draws

/-! ### Pools that fill a block -/

theorem sum_range_const {f : ℕ → ℕ} {c : ℕ} (n : ℕ) (h : ∀ i, f i = c) :
    ((range n).map f).sum = n * c := by
  rw [funext h, map_const', length_range, sum_replicate, smul_eq_mul]

theorem sizeOfBytes_replicate {k : ℕ} (op : UInt8) (h : 253 ≤ k) (h' : k ≤ 0xFFFF) :
    sizeOfBytes (replicate k op) = 3 + k := by
  rw [sizeOfBytes, length_replicate, getSizeOfCompactSize, if_neg (by omega), if_pos h']

theorem getSigOpCount_replicate {op : UInt8} (k : ℕ) (h : 0x4e < op.toNat) :
    getSigOpCount false (replicate k op) = k * sigOpWeight false 0xff op := by
  rw [getSigOpCount_codes fun x hx => (eq_of_mem_replicate hx) ▸ h, map_replicate,
    sum_replicate, smul_eq_mul]

theorem getMinFee_le (b n : ℕ) : getMinFee b n ≤ 5000000000000000000 := by
  have hmax : maxSingleTx = 5000000000000000000 := by decide
  unfold getMinFee
  simp only [hmax]
  split_ifs with h1 h2 h3 h3
  · exact le_rfl
  · exact (moneyRange_iff.1 h3).2
  · exact le_rfl
  · exact (moneyRange_iff.1 h3).2
  · exact le_rfl

/-- The heap lays its entries out as they were pushed. -/
def plainHeap : HeapLayout := ⟨id, fun _ => .refl _⟩

/-- The largest block is asked for, and free transactions are welcome in all of it. -/
def greedyArgs : MinerArgs := { blockmaxsize := 14999000, blockminsize := 14999000 }

theorem greedyArgs_letsThrough (n : ℕ) (s : ℕ → CScript) (tx : CTransaction) :
    LetsThrough greedyArgs n 5000000000000000000 s tx := by
  have hmin : greedyArgs.nBlockMinSize = greedyArgs.nBlockMaxSize := by decide
  exact ⟨fun b _ => getMinFee_le b 0, fun b hb => .inl (hmin ▸ hb)⟩

/-- Scripts that fill a block to the last byte, with as many transactions as make the count of them
take five bytes. -/
def fillingScript (i : ℕ) : CScript := replicate (if i = 0 then 56181 else 164) 0x51

theorem fillingScript_size :
    ((range 65535).map fun i => 63 + sizeOfBytes (fillingScript i)).sum = 14997999 := by
  have hfirst : sizeOfBytes (fillingScript 0) = 56184 :=
    sizeOfBytes_replicate 0x51 (by norm_num) (by norm_num)
  have hother : ∀ i, sizeOfBytes (fillingScript (i + 1)) = 165 := fun i => by
    rw [sizeOfBytes, fillingScript, length_replicate, if_neg (succ_ne_zero i)]
    rfl
  have hrest : ∀ i, ((fun i => 63 + sizeOfBytes (fillingScript i)) ∘ Nat.succ) i = 228 :=
    fun i => by
    rw [comp_apply, succ_eq_add_one, hother]
  rw [range_succ_eq_map, map_cons, sum_cons, hfirst, map_map, sum_range_const 65534 hrest]

theorem fillingScript_sigOps (i : ℕ) : getSigOpCount false (fillingScript i) = 0 := by
  rw [fillingScript, getSigOpCount_replicate _ (by decide)]
  rfl

/-- A script with the most signature operations that fit. -/
def busyScript (_ : ℕ) : CScript := replicate 14994 0xae ++ replicate 19 0xac

theorem busyScript_sigOps (i : ℕ) : getSigOpCount false (busyScript i) = 299899 := by
  have hcodes : ∀ op ∈ busyScript i, 0x4e < op.toNat := by
    intro op hop
    rcases mem_append.1 hop with h | h <;> rw [eq_of_mem_replicate h] <;> decide
  have h20 : sigOpWeight false 0xff 0xae = 20 := by decide
  have h1 : sigOpWeight false 0xff 0xac = 1 := by decide
  rw [getSigOpCount_codes hcodes, busyScript, map_append, sum_append_nat, map_replicate,
    map_replicate, sum_replicate, sum_replicate, h20, h1, smul_eq_mul, smul_eq_mul]

/-- The script of a transaction of a million bytes. -/
def bulkyScript (_ : ℕ) : CScript := replicate 999932 0x51

theorem bulkyScript_size (i : ℕ) : sizeOfBytes (bulkyScript i) = 999937 := by
  rw [sizeOfBytes, bulkyScript, length_replicate, getSizeOfCompactSize]
  norm_num

/-- The default arguments let such a transaction through. -/
theorem defaultArgs_letsThrough (i : ℕ) :
    LetsThrough {} 2 1000000000000 bulkyScript (drawTx i (bulkyScript i)) := by
  have hmax : ({} : MinerArgs).nBlockMaxSize = 3750000 := by decide
  refine ⟨fun b hb => ?_, fun b _ => .inr ?_⟩
  · -- below half of the generated size the fee is the base fee
    have hfee : getMinFee b 0 = 10000 := by
      have hhalf : ¬ (b ≠ 1 ∧ (b + 0) % 2 ^ 32 ≥ maxBlockSizeGen / 2) := by
        have : maxBlockSizeGen / 2 = 3750000 := by decide
        omega
      unfold getMinFee
      simp only [if_neg hhalf]
      decide
    rw [hfee]
    norm_num
  · have hsize : (drawTx i (bulkyScript i)).getSerializeSize = 1000000 := by
      rw [drawTx_size, bulkyScript_size]
    simp only [drawEntry, hsize]
    decide +kernel

end Simnet

open Simnet

/-- **Every template passes the limits of the validator if and only if these are at least what a
template can reach.**  The limits in force when the block is processed are `maxBlockSize` and
`maxBlockSigops`; the template is built from any pool, on any chain and with any arguments. -/
theorem createNewBlock_within_iff (maxBlockSize maxBlockSigops : ℕ) :
    (∀ (E : Env) (ctx : Ctx) (args : MinerArgs) (heap : HeapLayout) (w : World) (fProofOfStake : Bool)
      (key : Option (Vector UInt8 20)) (T : Template), E.CountsSigOps →
      createNewBlock E ctx args heap w fProofOfStake key = .ok T →
      T.pblock.getSerializeSize ≤ maxBlockSize ∧ T.pblock.sigOps w ≤ maxBlockSigops) ↔
    14998174 ≤ maxBlockSize ∧ 299900 ≤ maxBlockSigops := by
  constructor
  · intro h
    have hmax : greedyArgs.nBlockMaxSize = 14999000 := by decide
    have hlimit : minerMaxBlockSigops = 300000 := by decide
    constructor
    · -- a pool that fills the block to the last byte
      obtain ⟨T, hT, hsize, -⟩ := createNewBlock_draws (n := 65535)
        (v := 5000000000000000000) (s := fillingScript) plainHeap (by norm_num)
        (by norm_num) (by norm_num) (fun i _ => greedyArgs_letsThrough _ _ _)
        (by rw [fillingScript_size, hmax]; norm_num)
        (by rw [sum_range_const 65535 fillingScript_sigOps, hlimit]; norm_num)
      have hle := (h _ _ _ _ _ _ _ T countingEnv_counts hT).1
      have hcount : getSizeOfCompactSize (65535 + 1) = 5 := by decide
      rw [hsize, fillingScript_size, hcount] at hle
      omega
    · -- one transaction with all the signature operations
      have hone : ∀ f : ℕ → ℕ, ((range 1).map f).sum = f 0 := fun f => by simp
      have hsmall : sizeOfBytes (busyScript 0) ≤ 16000 := by
        rw [sizeOfBytes, busyScript, length_append, length_replicate,
          length_replicate, getSizeOfCompactSize]
        norm_num
      obtain ⟨T, hT, -, hops⟩ := createNewBlock_draws (n := 1) (v := 5000000000000000000)
        (s := busyScript) plainHeap (by norm_num) (by norm_num) (by norm_num)
        (fun i _ => greedyArgs_letsThrough _ _ _)
        (by rw [hone, hmax]; omega) (by rw [hone, busyScript_sigOps, hlimit]; norm_num)
      have hle := (h _ _ _ _ _ _ _ T countingEnv_counts hT).2
      rw [hops, hone, busyScript_sigOps] at hle
      omega
  · rintro ⟨hsize, hops⟩ E ctx args heap w fProofOfStake key T hE hT
    obtain ⟨h1, h2⟩ := createNewBlock_bounds hE hT
    exact ⟨h1.trans hsize, h2.trans hops⟩

/-- **A node builds a template that it does not accept.**  With the default arguments, two
transactions of a million bytes in the pool and the smallest limits that `ConnectBlock` sets, the
template is larger than `MAX_BLOCK_SIZE`. -/
theorem createNewBlock_exceeds :
    ¬ ∀ (E : Env) (ctx : Ctx) (args : MinerArgs) (heap : HeapLayout) (w : World) (fProofOfStake : Bool)
      (key : Option (Vector UInt8 20)) (T : Template), E.CountsSigOps →
      createNewBlock E ctx args heap w fProofOfStake key = .ok T →
      T.pblock.getSerializeSize ≤ w.maxBlockSize ∧ T.pblock.sigOps w ≤ w.maxBlockSigops := by
  intro h
  have htwo : ∀ f : ℕ → ℕ, ((range 2).map f).sum = f 0 + f 1 :=
    fun f => by simp [range_succ]
  have hmax : ({} : MinerArgs).nBlockMaxSize = 3750000 := by decide
  have hlimit : minerMaxBlockSigops = 300000 := by decide
  have hcount : ∀ i, getSigOpCount false (bulkyScript i) = 0 := fun i => by
    have hweight : sigOpWeight false 0xff 0x51 = 0 := by decide
    rw [bulkyScript, getSigOpCount_replicate _ (by decide), hweight, mul_zero]
  have hsum : ((range 2).map fun i => 63 + sizeOfBytes (bulkyScript i)).sum =
    2000000 := by
    simp only [htwo, bulkyScript_size]
  obtain ⟨T, hT, hsize, -⟩ := createNewBlock_draws (n := 2) (v := 1000000000000)
    (s := bulkyScript) plainHeap (by norm_num) (by norm_num) (by norm_num)
    (fun i _ => defaultArgs_letsThrough i)
    (by simp only [hsum, hmax, Nat.reduceAdd, Nat.reduceLT])
    (by simp only [htwo, hcount, hlimit, Nat.reduceAdd, Nat.reduceLT])
  have hle := (h _ _ _ _ _ _ _ T countingEnv_counts hT).1
  have hw : (bankWorld 2 1000000000000 bulkyScript).maxBlockSize = 1500000 := rfl
  omega

end Espers
