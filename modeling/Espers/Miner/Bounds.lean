import Espers.Miner.Template

/-!
# How large a template can get

* `Fits` : the invariant of the loop that fills the block: the counters are those of the
  transactions taken so far, and below the limits of `miner.cpp`.
* `assemble_fits` : every pass keeps it.
* `createNewBlock_bounds` : so every template has at most 14998174 bytes and 299900 signature
  operations, whatever the limits of `main.cpp` are.
-/

namespace Espers

open Exec AList Bool Nat Except
open List hiding Vector

/-! ### Signature operations of a block -/

/-- `GetP2SHSigOpCount`. -/
def getP2SHSigOpCount (tx : CTransaction) (inputs : MapPrevTx) : ℕ :=
  if tx.isCoinBase then 0
  else (tx.vin.map fun txin =>
    match getOutputFor txin inputs with
    | .ok prevout =>
      if isPayToScriptHash prevout.scriptPubKey then
        getScriptSigOpCount prevout.scriptPubKey txin.scriptSig
      else 0
    | .error _ => 0).sum

/-- The signature operations are counted as the source counts them. -/
structure Env.CountsSigOps (E : Env) : Prop where
  legacy : E.getLegacySigOpCount = Espers.getLegacySigOpCount
  p2sh : E.getP2SHSigOpCount = Espers.getP2SHSigOpCount

/-- The output an outpoint refers to. -/
def prevOutput (rd : CDiskTxPos → Option CTransaction) (v : View) (o : COutPoint) : Option CTxOut :=
  (v o.hash).bind fun e => (rd e.pos).bind fun tx => tx.vout[o.n]?

/-- The signature operations of a transaction on a chain: those in its scripts, and those in the
scripts that the outputs it spends are hashes of. -/
def sigOpsOn (rd : CDiskTxPos → Option CTransaction) (v : View) (tx : CTransaction) : ℕ :=
  getLegacySigOpCount tx +
    if tx.isCoinBase then 0
    else (tx.vin.map fun txin =>
      match prevOutput rd v txin.prevout with
      | some prevout =>
        if isPayToScriptHash prevout.scriptPubKey then
          getScriptSigOpCount prevout.scriptPubKey txin.scriptSig
        else 0
      | none => 0).sum

/-- The transaction index in the database. -/
def World.chainView (w : World) : View := CTxDB.view w.txdb.fresh

/-- The signature operations of a block, on the chain that `w` has in its database. -/
def CBlock.sigOps (w : World) (block : CBlock) : ℕ :=
  (block.vtx.map (sigOpsOn w.files.diskTx w.chainView)).sum

/-! ### The records of the template -/

variable {E : Env} {ctx : Ctx} {w : World} {args : MinerArgs} {heap : HeapLayout}

/-- Every record in the pool of the template is of a transaction of the template, or lies where the
database says. -/
def TestPool (v : View) (q : MapTxIndex) : Prop :=
  ∀ h e, q.lookup h = some e → e.pos = .inMemory ∨ ∃ e', v h = some e' ∧ e'.pos = e.pos

theorem testPool_empty (v : View) : TestPool v ∅ := by
  intro h e hl
  cases hl

variable {v : View}

theorem TestPool.insert {q : MapTxIndex} (hq : TestPool v q) {h : Uint256} {e : CTxIndex}
    (he : e.pos = .inMemory ∨ ∃ e', v h = some e' ∧ e'.pos = e.pos) :
    TestPool v (q.insert h e) := by
  intro h' e' hl
  by_cases hh : h' = h
  · subst hh
    rw [lookup_insert] at hl
    cases hl
    exact he
  · rw [lookup_insert_ne hh] at hl
    exact hq h' e' hl

/-- A record of the inputs lies where the database says. -/
def Recorded (v : View) (inputs : MapPrevTx) : Prop :=
  ∀ h e t, inputs.lookup h = some (e, t) → ∃ e', v h = some e' ∧ e'.pos = e.pos

variable {inputs : MapPrevTx}

theorem recorded_of_fetched {q : MapTxIndex} (hq : TestPool v q)
    (hf : Fetched w (overlay q v) inputs) : Recorded v inputs := by
  intro h e t hl
  obtain ⟨hov, hdisk⟩ := hf h e t hl
  unfold overlay at hov
  cases hlook : q.lookup h with
  | none =>
    rw [hlook] at hov
    exact ⟨e, by simpa using hov, rfl⟩
  | some x =>
    rw [hlook] at hov
    obtain rfl : x = e := by simpa using hov
    rcases hq h x hlook with hmem | hrec
    · rw [hmem, diskTx_inMemory] at hdisk
      cases hdisk
    · exact hrec

variable {tx : CTransaction}

theorem spendInputs_testPool {nBestHeight : ℤ} {pos : CDiskTxPos}
    {fBlock fMiner : Bool} {flags i : ℕ} {vin : List CTxIn} {q q' : MapTxIndex}
    (hrec : Recorded v inputs) (hq : TestPool v q)
    (h : spendInputs E nBestHeight tx pos fBlock fMiner flags i vin inputs q = .ok q') :
    TestPool v q' := by
  induction vin generalizing i inputs q with
  | nil =>
    simp only [spendInputs, ok.injEq] at h
    exact h ▸ hq
  | cons txin vin ih =>
    rw [spendInputs] at h
    cases hl : inputs.lookup txin.prevout.hash with
    | none =>
      rw [hl] at h
      cases h
    | some r =>
      rw [hl] at h
      simp only [except_bind_eq_ok] at h
      obtain ⟨-, -, -, -, h⟩ := h
      have hpos := hrec _ _ _ hl
      refine ih ?_ ?_ h
      · -- marking an outpoint does not move the record
        intro h' e' t' hl'
        by_cases hh : h' = txin.prevout.hash
        · subst hh
          rw [lookup_insert] at hl'
          cases hl'
          exact hpos
        · rw [lookup_insert_ne hh] at hl'
          exact hrec h' e' t' hl'
      · split_ifs
        · exact hq.insert (.inr hpos)
        · exact hq

theorem connectInputs_testPool {pos : CDiskTxPos} {p : Option Uint256} {fBlock fMiner : Bool}
    {flags : ℕ} {q q' : MapTxIndex} (hrec : Recorded v inputs) (hq : TestPool v q)
    (h : connectInputs E w tx inputs q pos p fBlock fMiner flags = .ok q') : TestPool v q' := by
  unfold connectInputs at h
  split_ifs at h
  · cases h
    exact hq
  · simp only [except_bind_eq_ok, ok.injEq] at h
    obtain ⟨_, -, _, hspend, -, -, rfl⟩ := h
    exact spendInputs_testPool hrec hq hspend

/-- The operations counted with the inputs at hand are those on the chain. -/
theorem sigOpsOn_eq {q : MapTxIndex}
    (hE : E.CountsSigOps) (hq : TestPool v q) (hf : Fetched w (overlay q v) inputs)
    (hin : tx.isCoinBase = false → ∀ txin ∈ tx.vin, ∃ o, getOutputFor txin inputs = .ok o) :
    E.getLegacySigOpCount tx + E.getP2SHSigOpCount tx inputs = sigOpsOn w.files.diskTx v tx := by
  rw [hE.legacy, hE.p2sh, sigOpsOn, getP2SHSigOpCount]
  by_cases hcb : tx.isCoinBase = true
  · rw [if_pos hcb, if_pos hcb]
  · rw [if_neg hcb, if_neg hcb]
    congr 2
    refine map_congr_left fun txin htx => ?_
    obtain ⟨o, ho⟩ := hin (by simpa using hcb) txin htx
    -- the output comes from the transaction that the record of the database points to
    have hprev : prevOutput w.files.diskTx v txin.prevout = some o := by
      have ho' := ho
      unfold getOutputFor at ho'
      cases hl : inputs.lookup txin.prevout.hash with
      | none =>
        rw [hl] at ho'
        cases ho'
      | some r =>
        obtain ⟨e, t⟩ := r
        rw [hl] at ho'
        simp only at ho'
        obtain ⟨e', hv, hpos⟩ := recorded_of_fetched hq hf _ _ _ hl
        have hdisk := (hf _ _ _ hl).2
        cases hn : t.vout[txin.prevout.n]? with
        | none =>
          rw [hn] at ho'
          cases ho'
        | some o' =>
          rw [hn] at ho'
          cases ho'
          simp [prevOutput, hv, hpos, hdisk, hn]
    rw [ho, hprev]

theorem getOutputFor_of_sumInputs {vin : List CTxIn} {a r : ℤ}
    (h : sumInputs inputs a vin = .ok r) : ∀ txin ∈ vin, ∃ o, getOutputFor txin inputs = .ok o := by
  induction vin generalizing a with
  | nil => simp
  | cons txin vin ih =>
    simp only [sumInputs, except_bind_eq_ok] at h
    obtain ⟨o, ho, h⟩ := h
    intro t ht
    rcases mem_cons.1 ht with rfl | ht
    · exact ⟨o, ho⟩
    · exact ih h t ht

theorem foldl_largest_mem (byFee : Bool) (ts : List TxPriority) (t : TxPriority) :
    ts.foldl (fun m t => if m.less byFee t then t else m) t ∈ t :: ts := by
  induction ts generalizing t with
  | nil => exact mem_cons_self
  | cons u ts ih =>
    rw [foldl_cons]
    by_cases hless : t.less byFee u = true
    · rw [if_pos hless]
      exact mem_cons_of_mem _ (ih u)
    · rw [if_neg hless]
      rcases mem_cons.1 (ih t) with h | h
      · rw [h]
        exact mem_cons_self
      · exact mem_cons_of_mem _ (mem_cons_of_mem _ h)

theorem HeapLayout.pop_eq_none {byFee : Bool} {v : List TxPriority} (h : heap.pop byFee v = none) :
    v = [] := by
  unfold HeapLayout.pop at h
  cases hv : heap.arrange v with
  | nil => exact (hv ▸ heap.perm v).nil_eq.symm
  | cons t ts =>
    rw [hv] at h
    cases h

theorem HeapLayout.pop_eq_some {byFee : Bool} {v rest : List TxPriority} {t : TxPriority}
    (h : heap.pop byFee v = some (t, rest)) : t ∈ v ∧ rest = v.erase t := by
  unfold HeapLayout.pop at h
  cases hv : heap.arrange v with
  | nil =>
    rw [hv] at h
    cases h
  | cons u ts =>
    rw [hv] at h
    obtain ⟨rfl, rfl⟩ := h
    exact ⟨(heap.perm v).subset (hv ▸ foldl_largest_mem byFee ts u), rfl⟩

/-! ### The invariant of the loop -/

/-- The counters are those of the transactions taken, and they are below the limits. -/
structure Fits (w : World) (args : MinerArgs) (a : Assembly) : Prop where
  size : a.nBlockSize = 1000 + (a.vtx.map CTransaction.getSerializeSize).sum
  size_lt : a.vtx = [] ∨ a.nBlockSize < args.nBlockMaxSize
  sigOps : a.nBlockSigOps = 100 + (a.vtx.map (sigOpsOn w.files.diskTx w.chainView)).sum
  sigOps_lt : a.nBlockSigOps < minerMaxBlockSigops
  pool : TestPool w.chainView a.mapTestPool

theorem fits_init (vecPriority : List TxPriority) (orphans : Orphans) :
    Fits w args (.init args vecPriority orphans) :=
  ⟨rfl, .inl rfl, rfl, show 100 < minerMaxBlockSigops by decide, testPool_empty _⟩

theorem Fits.requeue {a : Assembly} (h : Fits w args a) (byFee : Bool) (q : List TxPriority)
    (o : Orphans) : Fits w args { a with fSortedByFee := byFee, vecPriority := q, orphans := o } :=
  ⟨h.size, h.size_lt, h.sigOps, h.sigOps_lt, h.pool⟩

variable {a a' : Assembly}

theorem release_eq {hash : Uint256} {ids : List ℕ} (h : Assembly.release hash ids a = .ok a') :
    ∃ q o, a' = { a with vecPriority := q, orphans := o } := by
  induction ids generalizing a with
  | nil =>
    cases h
    exact ⟨_, _, rfl⟩
  | cons id ids ih =>
    rw [Assembly.release] at h
    cases hfind : a.orphans.vOrphan.find? fun x => x.1 = id with
    | none =>
      rw [hfind] at h
      cases h
    | some x =>
      rw [hfind] at h
      simp only at h
      split_ifs at h
      · exact ih h
      · obtain ⟨q, o, rfl⟩ := ih h
        exact ⟨q, o, rfl⟩
      · obtain ⟨q, o, rfl⟩ := ih h
        exact ⟨q, o, rfl⟩

theorem tolerate_eq_some {α : Type} {x : Except Stop α} {a : α} :
    tolerate x = .ok (some a) ↔ x = .ok a := by
  cases x with
  | ok b => simp [tolerate]
  | error e =>
    simp only [tolerate]
    split_ifs <;> simp

variable {p : Uint256}

theorem connect_fits (hE : E.CountsSigOps) (ha : Fits w args a)
    (hsize : a.nBlockSize + tx.getSerializeSize < args.nBlockMaxSize)
    (hf : Fetched w (overlay a.mapTestPool w.chainView) inputs)
    (h : a.connect E w p tx inputs = .ok a') : Fits w args a' := by
  obtain ⟨nValueIn, hin, h⟩ := except_bind_eq_ok.1 h
  obtain ⟨nValueOut, -, h⟩ := except_bind_eq_ok.1 h
  simp only at h
  split_ifs at h with hfee hsig
  · cases h
    exact ha
  · cases h
    exact ha
  · obtain ⟨r, hr, h⟩ := except_bind_eq_ok.1 h
    cases r with
    | none =>
      cases h
      exact ha
    | some q =>
      obtain ⟨queue, o, rfl⟩ := release_eq h
      have hconn := tolerate_eq_some.1 hr
      have hcount : E.getLegacySigOpCount tx + E.getP2SHSigOpCount tx inputs =
          sigOpsOn w.files.diskTx w.chainView tx := by
        refine sigOpsOn_eq hE ha.pool hf fun hcb => ?_
        rw [getValueMapIn, hcb] at hin
        exact getOutputFor_of_sumInputs hin
      have hpool := connectInputs_testPool (recorded_of_fetched ha.pool hf) ha.pool hconn
      have hadd : Fits w args (a.add E tx (E.getLegacySigOpCount tx + E.getP2SHSigOpCount tx inputs)
          (sub64 nValueIn nValueOut) q) := by
        refine ⟨?_, .inr hsize, ?_, by simpa [Assembly.add] using hsig, hpool.insert (.inl rfl)⟩
        · simp only [Assembly.add, map_append, sum_append_nat, map_cons, map_nil,
            sum_cons, sum_nil, add_zero]
          rw [ha.size, add_assoc]
        · simp only [Assembly.add, map_append, sum_append_nat, map_cons, map_nil,
            sum_cons, sum_nil, add_zero]
          rw [ha.sigOps, hcount, add_assoc]
      exact hadd.requeue _ queue o

variable {fProofOfStake : Bool}

/-- One pass of the loop keeps the invariant. -/
theorem consider_fits {nTime : ℕ} {t : TxPriority} (hE : E.CountsSigOps) (ha : Fits w args a)
    (h : a.consider E ctx w args fProofOfStake p nTime t = .ok a') : Fits w args a' := by
  unfold Assembly.consider at h
  split_ifs at h with hadmits
  · cases h
    exact ha
  · have hsize : a.nBlockSize + t.tx.getSerializeSize < args.nBlockMaxSize := by
      simp only [Assembly.admits, not_eq_true', not_eq_false, and_eq_true,
        decide_eq_true_eq] at hadmits
      exact hadmits.1.1.1
    have hre : Fits w args (a.reorder args t) := ha.requeue _ _ _
    obtain ⟨r, hr, h⟩ := except_bind_eq_ok.1 h
    cases r with
    | none =>
      cases h
      exact hre
    | some inputs =>
      exact connect_fits hE hre hsize (fetchInputs_sound (tolerate_eq_some.1 hr)) h

/-- **Every run of the loop keeps the invariant.** -/
theorem assemble_fits {nTime fuel : ℕ} (hE : E.CountsSigOps) (ha : Fits w args a)
    (h : assemble E ctx w args heap fProofOfStake p nTime fuel a = .ok a') : Fits w args a' := by
  induction fuel generalizing a with
  | zero =>
    rw [assemble] at h
    split_ifs at h
    cases h
    exact ha
  | succ fuel ih =>
    rw [assemble] at h
    cases hpop : heap.pop a.fSortedByFee a.vecPriority with
    | none =>
      rw [hpop] at h
      cases h
      exact ha
    | some x =>
      obtain ⟨t, q⟩ := x
      rw [hpop] at h
      obtain ⟨b, hb, h⟩ := except_bind_eq_ok.1 h
      exact ih (consider_fits hE (ha.requeue _ q _) hb) h

/-! ### The size of a template -/

theorem getSizeOfCompactSize_le {n : ℕ} (h : n ≤ 0xFFFFFFFF) : getSizeOfCompactSize n ≤ 5 := by
  unfold getSizeOfCompactSize
  split_ifs <;> omega

theorem length_le_sum_size (vtx : List CTransaction) :
    vtx.length ≤ (vtx.map CTransaction.getSerializeSize).sum := by
  induction vtx with
  | nil => simp
  | cons tx vtx ih =>
    have := tx.getSerializeSize_pos
    simp only [length_cons, map_cons, sum_cons]
    omega

theorem nBlockMaxSize_le (args : MinerArgs) : args.nBlockMaxSize ≤ 14999000 := by
  unfold MinerArgs.nBlockMaxSize minerMaxBlockSize
  omega

theorem sizeOfBytes_payToKey (id : Vector UInt8 20) : sizeOfBytes (payToKey id) = 26 := by
  have : (payToKey id).length = 25 := by simp [payToKey]
  rw [sizeOfBytes, this]
  rfl

theorem newCoinBase_key_size (id : Vector UInt8 20) (nHeight : ℕ) (n : ℤ) :
    ((newCoinBase ctx nHeight (some id)).paying n).getSerializeSize = 89 := by
  simp [newCoinBase, CTransaction.paying, CTransaction.getSerializeSize,
    CTxOut.getSerializeSize, sizeOfBytes_payToKey]
  rfl

theorem newCoinBase_stake_size {nHeight : ℕ} (h : nHeight < 2 ^ 31) :
    (newCoinBase ctx nHeight none).getSerializeSize ≤ 89 := by
  have hlen := length_pushInt_le h
  have hsize : sizeOfBytes (pushInt nHeight ++ coinbaseFlags) ≤ 7 := by
    rw [coinbaseFlags, append_nil, sizeOfBytes, getSizeOfCompactSize, if_pos (by omega)]
    omega
  have hnil : sizeOfBytes [] = 1 := rfl
  have hone : getSizeOfCompactSize 1 = 1 := rfl
  simp only [newCoinBase, CTransaction.getSerializeSize, CTxIn.getSerializeSize,
    CTxOut.getSerializeSize, map_cons, map_nil, sum_cons, sum_nil,
    length_cons, length_nil, hone]
  omega

theorem getSigOpCount_payToKey (id : Vector UInt8 20) : getSigOpCount false (payToKey id) = 1 := by
  have hid : id.toList.length = 20 := by simp
  have hlen : (payToKey id).length = 21 + 1 + 1 + 1 + 1 := by simp [payToKey]
  have hpush := sigOpLoop_push false (21 + 1) 0xa9 [0x88, 0xac] (b := id.toList) (by omega)
  rw [hid] at hpush
  rw [getSigOpCount, hlen, payToKey]
  simp only [cons_append, nil_append]
  rw [sigOpLoop_code _ _ _ _ (by decide), sigOpLoop_code _ _ _ _ (by decide)]
  -- the twenty bytes of the key are skipped
  rw [show (0x14 : UInt8) = UInt8.ofNat 20 from rfl, hpush]
  rfl

theorem newCoinBase_key_sigOps (id : Vector UInt8 20) (nHeight : ℕ) (n : ℤ)
    (rd : CDiskTxPos → Option CTransaction) (v : View) :
    sigOpsOn rd v ((newCoinBase ctx nHeight (some id)).paying n) = 1 := by
  have hcb : ((newCoinBase ctx nHeight (some id)).paying n).isCoinBase = true := rfl
  rw [sigOpsOn, if_pos hcb]
  simp [getLegacySigOpCount, newCoinBase, CTransaction.paying, getSigOpCount_payToKey,
    getSigOpCount_nil]

theorem newCoinBase_stake_sigOps {nHeight : ℕ} (h : nHeight < 2 ^ 31)
    (rd : CDiskTxPos → Option CTransaction) (v : View) :
    sigOpsOn rd v (newCoinBase ctx nHeight none) = 0 := by
  have hcb : (newCoinBase ctx nHeight none).isCoinBase = true := rfl
  rw [sigOpsOn, if_pos hcb]
  simp [getLegacySigOpCount, newCoinBase, coinbaseFlags, getSigOpCount_pushInt h, getSigOpCount_nil]

variable {key : Option (Vector UInt8 20)}

/-- What `CreateNewBlock` does when it returns a template. -/
theorem createNewBlock_spec {T : Template}
    (h : createNewBlock E ctx args heap w fProofOfStake key = .ok T) :
    ∃ p e nBits vecPriority orphans a, w.pindexBest = some p ∧ w.mapBlockIndex.lookup p = some e ∧
      e.nHeight + 1 < 2 ^ 31 ∧ (fProofOfStake = false → key.isSome) ∧
      collect E ctx w (e.nHeight + 1) (poolTxs w) [] ⟨[], 0, ∅⟩ = .ok (vecPriority, orphans) ∧
      assemble E ctx w args heap fProofOfStake p ctx.getAdjustedTime.toNat
        (vecPriority.length + orphans.vOrphan.length) (.init args vecPriority orphans) = .ok a ∧
      T = fillTemplate ctx fProofOfStake p e (e.nHeight + 1) nBits
        (newCoinBase ctx (e.nHeight + 1) (if fProofOfStake then none else key)) a := by
  unfold createNewBlock at h
  cases hbest : w.pindexBest with
  | none =>
    rw [hbest] at h
    cases h
  | some p =>
    rw [hbest] at h
    simp only at h
    cases he : w.mapBlockIndex.lookup p with
    | none =>
      rw [he] at h
      cases h
    | some e =>
      rw [he] at h
      simp only [except_bind_eq_ok, rejectIf_eq_ok, exists_const] at h
      obtain ⟨hheight, hkey, nBits, -, ⟨vecPriority, orphans⟩, hcollect, a, hassemble, hT⟩ := h
      have htime : (newCoinBase ctx (e.nHeight + 1) (if fProofOfStake then none else key)).nTime =
          ctx.getAdjustedTime.toNat := by
        cases (if fProofOfStake then none else key) <;> rfl
      rw [htime] at hassemble
      refine ⟨p, e, nBits, vecPriority, orphans, a, rfl, he, by omega, fun hpow => ?_, hcollect,
        hassemble, by cases hT; rfl⟩
      by_contra hnone
      exact hkey ⟨by simp [hpow], by simpa using hnone⟩

theorem fillTemplate_coinBase {e : CBlockIndex} {nHeight : ℕ} (nBits : ℕ) (a : Assembly)
    (hheight : nHeight < 2 ^ 31) (hkey : fProofOfStake = false → key.isSome) :
    ∃ cb, (fillTemplate ctx fProofOfStake p e nHeight nBits
        (newCoinBase ctx nHeight (if fProofOfStake then none else key)) a).pblock.vtx =
        cb :: a.vtx ∧
      cb.getSerializeSize ≤ 89 ∧ ∀ rd v, sigOpsOn rd v cb ≤ 1 := by
  cases fProofOfStake with
  | true =>
    refine ⟨newCoinBase ctx nHeight none, rfl, newCoinBase_stake_size hheight, fun rd v => ?_⟩
    rw [newCoinBase_stake_sigOps hheight]
    exact zero_le 1
  | false =>
    obtain ⟨id, rfl⟩ := Option.isSome_iff_exists.1 (hkey rfl)
    exact ⟨_, rfl, (newCoinBase_key_size id nHeight _).le,
      fun rd v => (newCoinBase_key_sigOps id nHeight _ rd v).le⟩

/-- **The size of a template is bounded by the limits of `miner.cpp`**, with what the header and the
coinbase leave of the thousand bytes and the hundred operations set aside for them. -/
theorem createNewBlock_bounds {T : Template}
    (hE : E.CountsSigOps) (h : createNewBlock E ctx args heap w fProofOfStake key = .ok T) :
    T.pblock.getSerializeSize ≤ 14998174 ∧ T.pblock.sigOps w ≤ 299900 := by
  obtain ⟨p, e, nBits, q, o, a, -, -, hheight, hkey, -, hassemble, rfl⟩ := createNewBlock_spec h
  have hfits : Fits w args a := assemble_fits hE (fits_init q o) hassemble
  obtain ⟨cb, hvtx, hcb, hops⟩ := fillTemplate_coinBase (p := p) (e := e) nBits a hheight hkey
  have hsig : (fillTemplate ctx fProofOfStake p e (e.nHeight + 1) nBits
      (newCoinBase ctx (e.nHeight + 1) (if fProofOfStake then none else key))
      a).pblock.vchBlockSig = [] := rfl
  have hmax := nBlockMaxSize_le args
  constructor
  · have htotal : (a.vtx.map CTransaction.getSerializeSize).sum ≤ 14997999 := by
      have hsize := hfits.size
      rcases hfits.size_lt with hnil | hlt
      · simp [hnil]
      · omega
    have hcount : getSizeOfCompactSize (cb :: a.vtx).length ≤ 5 := by
      have := length_le_sum_size a.vtx
      refine getSizeOfCompactSize_le ?_
      rw [length_cons]
      omega
    have hnil : sizeOfBytes [] = 1 := rfl
    rw [CBlock.getSerializeSize, hvtx, hsig, hnil, map_cons, sum_cons, headerSize]
    omega
  · have hlt := hfits.sigOps_lt
    have hlimit : minerMaxBlockSigops = 300000 := by decide
    rw [hfits.sigOps, hlimit] at hlt
    rw [CBlock.sigOps, hvtx, map_cons, sum_cons]
    have := hops w.files.diskTx w.chainView
    omega

end Espers
