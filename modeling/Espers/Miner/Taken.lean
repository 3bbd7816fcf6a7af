import Espers.Chain.Joins
import Espers.Miner.Bounds
import Espers.Script.Policy

/-!
# What is taken into a template

Every transaction of a template has been fetched and connected, against the records of the chain and
of the transactions taken before it.  The record of a transaction of the template points into
memory, and `FetchInputs` reads the transactions from disk: no transaction is taken together with
one that it spends.

* `Queued` : the queue and the list of those that wait hold payments of the pool.
* `Taken` : the invariant of the loop that fills the block: what was taken joins the chain as it is,
  and no outpoint is spent twice.
* `assemble_taken` : **every run of the loop keeps it.**
-/

namespace Espers

open Exec Except Function
open List hiding Vector

variable {E : Env} {ctx : Ctx} {w : World} {args : MinerArgs} {heap : HeapLayout}

/-! ### The queue -/

/-- A payment of the pool. -/
structure Candidate (w : World) (tx : CTransaction) : Prop where
  pooled : tx ∈ poolTxs w
  notCoinBase : tx.isCoinBase = false
  notCoinStake : tx.isCoinStake = false

/-- The transactions that wait are payments of the pool. -/
def Orphans.Candidates (w : World) (orphans : Orphans) : Prop :=
  ∀ x ∈ orphans.vOrphan, Candidate w x.2.ptx

/-- The queue and the list of those that wait hold payments of the pool. -/
structure Queued (w : World) (vecPriority : List TxPriority) (orphans : Orphans) : Prop where
  queue : ∀ t ∈ vecPriority, Candidate w t.tx
  orphans : orphans.Candidates w

theorem Orphans.Candidates.map {orphans : Orphans} (h : orphans.Candidates w)
    (f : ℕ × COrphan → ℕ × COrphan) (hf : ∀ x, (f x).2.ptx = x.2.ptx) (n : ℕ)
    (m : AList fun _ : Uint256 => List ℕ) :
    Orphans.Candidates w ⟨orphans.vOrphan.map f, n, m⟩ := by
  intro x hx
  obtain ⟨y, hy, rfl⟩ := mem_map.1 hx
  rw [hf]
  exact h y hy

variable {tx : CTransaction}

theorem InputTally.wait_candidates {s : InputTally} (hash : Uint256)
    (htx : Candidate w tx) (h : s.orphans.Candidates w) :
    (s.wait tx hash).orphans.Candidates w := by
  have hnew : Orphans.Candidates w { s.orphans with
      vOrphan := if s.porphan.isSome then s.orphans.vOrphan
        else s.orphans.vOrphan ++
        [(s.porphan.getD s.orphans.nNext, ⟨tx, [], .fin 0, .fin 0⟩)] } := by
    split_ifs
    · exact h
    · intro x hx
      rcases mem_append.1 hx with hx | hx
      · exact h x hx
      · rw [mem_singleton.1 hx]
        exact htx
  refine hnew.map _ (fun x => ?_) _ _
  split_ifs <;> rfl

theorem scanInputs_candidates {vin : List CTxIn} {s : InputTally}
    {r : Option InputTally} {o : Orphans} (htx : Candidate w tx) (hs : s.orphans.Candidates w)
    (h : scanInputs E ctx w tx vin s = .ok (r, o)) : o.Candidates w := by
  induction vin generalizing s with
  | nil =>
    simp only [scanInputs, ok.injEq, Prod.mk.injEq] at h
    exact h.2 ▸ hs
  | cons txin vin ih =>
    rw [scanInputs] at h
    cases hread : readPrevTx w ctx w.txdb.fresh txin.prevout with
    | some x =>
      rw [hread] at h
      exact ih (s := { s with
        nTotalIn := add64 s.nTotalIn (x.2.vout.getD txin.prevout.n default).nValue
        dPriority := s.dPriority.add
          ((Binary64.ofRat (x.2.vout.getD txin.prevout.n default).nValue).mul
            (.ofRat (getDepthInMainChain E w x.1))) }) hs h
    | none =>
      rw [hread] at h
      cases hpool : w.mempool.mapTx.lookup txin.prevout.hash with
      | none =>
        rw [hpool] at h
        obtain ⟨-, rfl⟩ := h
        split_ifs
        · intro x hx
          exact hs x (dropLast_subset _ hx)
        · exact hs
      | some txPrev =>
        rw [hpool] at h
        simp only at h
        cases hout : txPrev.vout[txin.prevout.n]? with
        | none =>
          rw [hout] at h
          cases h
        | some txout =>
          rw [hout] at h
          exact ih (s := { s.wait tx txin.prevout.hash with
            nTotalIn := add64 (s.wait tx txin.prevout.hash).nTotalIn txout.nValue })
            (InputTally.wait_candidates _ htx hs) h

/-- The loop over the pool puts its payments into the queue or aside. -/
theorem collect_queued {nHeight : ℕ} {txs : List CTransaction} {q q' : List TxPriority}
    {o o' : Orphans} (htxs : ∀ tx ∈ txs, tx ∈ poolTxs w) (hq : Queued w q o)
    (h : collect E ctx w nHeight txs q o = .ok (q', o')) : Queued w q' o' := by
  induction txs generalizing q o with
  | nil =>
    obtain ⟨rfl, rfl⟩ := h
    exact hq
  | cons tx txs ih =>
    have hrest := fun x hx => htxs x (mem_cons_of_mem _ hx)
    rw [collect] at h
    split_ifs at h with hskip
    · exact ih hrest hq h
    · simp only [Bool.or_eq_true, not_or, Bool.not_eq_true] at hskip
      have htx : Candidate w tx := ⟨htxs tx mem_cons_self, hskip.1.1, hskip.1.2⟩
      obtain ⟨⟨r, o1⟩, hscan, h⟩ := except_bind_eq_ok.1 h
      have ho1 := scanInputs_candidates htx hq.orphans hscan
      cases r with
      | none => exact ih hrest ⟨hq.queue, ho1⟩ h
      | some s =>
        obtain ⟨nValueOut, -, h⟩ := except_bind_eq_ok.1 h
        cases hp : s.porphan with
        | none =>
          rw [hp] at h
          refine ih hrest ⟨fun t ht => ?_, ho1⟩ h
          rcases mem_append.1 ht with ht | ht
          · exact hq.queue t ht
          · rw [mem_singleton.1 ht]
            exact htx
        | some id =>
          rw [hp] at h
          refine ih hrest ⟨hq.queue, ho1.map _ (fun x => ?_) _ _⟩ h
          split_ifs <;> rfl

variable {a a' : Assembly}

/-- Those that waited for a transaction of the block are payments of the pool. -/
theorem release_queued {hash : Uint256} {ids : List ℕ}
    (hq : Queued w a.vecPriority a.orphans) (h : Assembly.release hash ids a = .ok a') :
    Queued w a'.vecPriority a'.orphans := by
  induction ids generalizing a with
  | nil =>
    cases h
    exact hq
  | cons id ids ih =>
    rw [Assembly.release] at h
    cases hfind : a.orphans.vOrphan.find? fun x => x.1 = id with
    | none =>
      rw [hfind] at h
      cases h
    | some x =>
      rw [hfind] at h
      simp only at h
      have hx : Candidate w x.2.ptx := hq.orphans x (mem_of_find?_eq_some hfind)
      by_cases hnone : x.2.setDependsOn = []
      · rw [if_pos hnone] at h
        exact ih hq h
      · rw [if_neg hnone] at h
        refine ih ⟨fun t ht => ?_, ?_⟩ h
        · rcases mem_append.1 ht with ht | ht
          · exact hq.queue t ht
          · split_ifs at ht
            · rw [mem_singleton.1 ht]
              exact hx
            · exact absurd ht not_mem_nil
        · refine hq.orphans.map _ (fun y => ?_) _ _
          split_ifs <;> rfl

/-! ### The inputs of a transaction that is taken -/

/-- A view on which the outpoints `S` are spent, and everything that is left to spend on disk is
what `v0` has there. -/
def Remaining (rd : CDiskTxPos → Option CTransaction) (v0 v : View) (S : List COutPoint) : Prop :=
  ∀ o r t, Source rd v o r t → o ∉ S ∧ ∃ r0, Source rd v0 o r0 t ∧ r0.pos = r.pos

theorem Remaining.refl (rd : CDiskTxPos → Option CTransaction) (v : View) : Remaining rd v v [] :=
  fun _ r _ h => ⟨not_mem_nil, r, h, rfl⟩

/-- The record of a transaction of the template points into memory, where nothing is read. -/
theorem Remaining.connectTx {v0 v : View} {S : List COutPoint} (h : Remaining w.files.diskTx v0 v S)
    (E : Env) (tx : CTransaction) :
    Remaining w.files.diskTx v0 (connectTx E .inMemory tx v) (S ++ tx.spends) := by
  intro o r t hs
  have hne : o.hash ≠ E.txHash tx := by
    intro heq
    have hrec := hs.record
    rw [heq, Espers.connectTx, update_self, Option.some.injEq] at hrec
    have hread := hs.read
    rw [← hrec, CTxIndex.ofOutputs, diskTx_inMemory] at hread
    cases hread
  have hrec := hs.record
  simp only [Espers.connectTx, update_of_ne hne, markAll, Option.map_eq_some_iff] at hrec
  obtain ⟨r', hr', rfl⟩ := hrec
  have hnull := hs.unspent
  simp only [getElem?_setSlots] at hnull
  have ho : o ∉ tx.spends := by
    intro hmem
    rw [if_pos hmem, Option.map_eq_some_iff] at hnull
    obtain ⟨-, -, hpos⟩ := hnull
    exact absurd hpos (by decide)
  rw [if_neg ho] at hnull
  obtain ⟨hS, r0, hs0, hpos⟩ := h o r' t ⟨hr', hs.read, hnull⟩
  refine ⟨fun hmem => ?_, r0, hs0, hpos⟩
  rcases mem_append.1 hmem with hmem | hmem
  · exact hS hmem
  · exact ho hmem

/-- **What `ConnectInputs` lets into a template joins the view.** -/
theorem connectInputs_joins {v : View} {q q' : MapTxIndex} {inputs : MapPrevTx} {p : Option Uint256}
    {flags : ℕ} {nValueIn nValueOut : ℤ} (hcb : tx.isCoinBase = false)
    (hst : tx.isCoinStake = false) (hf : Fetched w (overlay q v) inputs)
    (hin : getValueMapIn inputs tx = .ok nValueIn) (hout : tx.getValueOut = .ok nValueOut)
    (h : connectInputs E w tx inputs q .inMemory p false true flags = .ok q') :
    Joins E w.mapBlockIndex p w.files.diskTx (overlay q v) flags tx ∧
      nValueIn = valueIn w.files.diskTx (overlay q v) tx ∧ nValueOut = tx.valueOut ∧
      overlay q' v = markAll .inMemory tx.spends (overlay q v) := by
  simp only [connectInputs, hcb, Bool.false_eq_true, ↓reduceIte, except_bind_eq_ok, ok.injEq] at h
  obtain ⟨n, hchk, q1, hsp, _, hfees, rfl⟩ := h
  have hspends : tx.spends = tx.vin.map CTxIn.prevout := by
    rw [CTransaction.spends, hcb]
    rfl
  -- the values
  obtain ⟨hn, hn0, hn1, hsum, hslots⟩ := checkInputs_spec hf le_rfl (by norm_num) hchk
  have hval : valueIn w.files.diskTx (overlay q v) tx = n := by
    rw [valueIn, hspends, map_map, hn, zero_add]
    rfl
  obtain ⟨hv, hv0, hv1, -⟩ := sumValues_eq le_rfl (by norm_num) hout
  rw [zero_add] at hv
  obtain rfl : nValueOut = tx.valueOut := hv
  rw [getValueMapIn, hcb] at hin
  simp only [Bool.false_eq_true, ↓reduceIte, hsum, ok.injEq] at hin
  subst hin
  -- the records
  have hgood := checkInputs_good hchk
  obtain ⟨hsigned, -⟩ := spendInputs_good hsp
  obtain ⟨hnd, hunspent⟩ := spendInputs_unspent (by decide) (fun txin hmem r t hl => by
    obtain ⟨r', t', hl', hlen, -⟩ := hgood txin hmem
    obtain rfl : r' = r := by
      rw [hl, Option.some.injEq, Prod.mk.injEq] at hl'
      exact hl'.1.symm
    exact hlen) hsp
  have hmarks := (spendInputs_marks (by rw [Bool.false_or]) (fun hash r t hl => (hf hash r t hl).1)
    (fun txin hmem => (hslots txin hmem).2) hsp).1
  refine ⟨⟨hcb, hst, fun i txin hi => ?_, hnd, by rw [hval]; exact hn1, hout, hv0, ?_⟩,
    hval.symm, rfl, by rw [hmarks, hspends]⟩
  · obtain ⟨r, t, hl, -, hmature, horder, houtput⟩ := hgood txin (mem_of_getElem? hi)
    obtain ⟨hrec, hread⟩ := hf _ _ _ hl
    have hver := hsigned i txin hi r t hl
    rw [Nat.zero_add] at hver
    exact ⟨r, t, ⟨hrec, hread, hunspent txin (mem_of_getElem? hi) r t hl⟩,
      hmature, horder, houtput, hver⟩
  · rw [hval]
    simp only [checkFees, hst, Bool.false_eq_true, ↓reduceIte, hout, except_ok_bind,
      except_bind_eq_ok, rejectIf_eq_ok, exists_and_left, not_lt] at hfees
    exact hfees.1

/-! ### The invariant of the loop -/

/-- A transaction pays a fee to get into a block. -/
theorem getMinFee_pos (nBlockSize : ℕ) : 0 < getMinFee nBlockSize 0 := by
  have hmax : maxSingleTx = 5000000000000000000 := by decide
  have hbase : mul64 (1 + ((0 : ℕ) : ℤ) / 1000) minTxFee = 10000 := by decide
  have hgen : maxBlockSizeGen = 7500000 := by decide
  unfold getMinFee
  simp only [hmax, hbase, hgen]
  have hsmall : moneyRange 10000 = true := by decide
  split_ifs with h1 h2 h3
  · norm_num
  · -- the quotient is between one and the size
    obtain ⟨k, hk⟩ : ∃ k, 7500000 / (7500000 - (nBlockSize + 0) % 2 ^ 32) = k := ⟨_, rfl⟩
    have hk1 : 1 ≤ k := by
      rw [← hk]
      exact (Nat.one_le_div_iff (by omega)).2 (by omega)
    have hk2 : k ≤ 7500000 := by
      rw [← hk]
      exact Nat.div_le_self _ _
    rw [hk, mul64, wrap64_of_range (by omega) (by omega)]
    omega
  · norm_num
  · norm_num

/-- The transactions taken join the chain as it is, they spend no outpoint twice, and each leaves a
fee. -/
structure Taken (E : Env) (w : World) (p : Uint256) (a : Assembly) : Prop where
  queued : Queued w a.vecPriority a.orphans
  candidates : ∀ tx ∈ a.vtx, Candidate w tx
  joins : ∀ tx ∈ a.vtx, Joins E w.mapBlockIndex (some p) w.files.diskTx w.chainView
    mandatoryScriptVerifyFlags tx
  paying : ∀ tx ∈ a.vtx, tx.valueOut < valueIn w.files.diskTx w.chainView tx
  remaining : Remaining w.files.diskTx w.chainView (overlay a.mapTestPool w.chainView)
    (a.vtx.flatMap CTransaction.spends)
  nodup : (a.vtx.flatMap CTransaction.spends).Nodup
  fees : a.nFees = wrap64 (paymentsIn w.files.diskTx w.chainView a.vtx - totalOut a.vtx)

variable {p : Uint256}

theorem taken_init {vecPriority : List TxPriority} {orphans : Orphans}
    (hq : Queued w vecPriority orphans) : Taken E w p (.init args vecPriority orphans) where
  queued := hq
  candidates := fun _ h => absurd h not_mem_nil
  joins := fun _ h => absurd h not_mem_nil
  paying := fun _ h => absurd h not_mem_nil
  remaining := by
    have hempty : (Assembly.init args vecPriority orphans).mapTestPool = ∅ := rfl
    rw [hempty, overlay_empty]
    exact Remaining.refl _ _
  nodup := nodup_nil
  fees := by
    change (0 : ℤ) = wrap64 (0 - 0)
    decide

theorem Taken.requeue {a : Assembly} (h : Taken E w p a) (byFee : Bool)
    {q : List TxPriority} {o : Orphans} (hq : Queued w q o) :
    Taken E w p { a with fSortedByFee := byFee, vecPriority := q, orphans := o } :=
  ⟨hq, h.candidates, h.joins, h.paying, h.remaining, h.nodup, h.fees⟩

theorem connect_taken {inputs : MapPrevTx} (ha : Taken E w p a) (htx : Candidate w tx)
    (hf : Fetched w (overlay a.mapTestPool w.chainView) inputs)
    (h : a.connect E w p tx inputs = .ok a') : Taken E w p a' := by
  obtain ⟨nValueIn, hin, h⟩ := except_bind_eq_ok.1 h
  obtain ⟨nValueOut, hout, h⟩ := except_bind_eq_ok.1 h
  simp only at h
  split_ifs at h with hfee hsig
  · cases h
    exact ha
  · cases h
    exact ha
  obtain ⟨r, hr, h⟩ := except_bind_eq_ok.1 h
  cases r with
  | none =>
    cases h
    exact ha
  | some q =>
    obtain ⟨hjoins, rfl, rfl, hview⟩ :=
      connectInputs_joins htx.notCoinBase htx.notCoinStake hf hin hout (tolerate_eq_some.1 hr)
    -- what it spends was there before the first transaction was taken
    have hfree : ∀ o ∈ tx.spends, o ∉ a.vtx.flatMap CTransaction.spends := by
      intro o ho
      obtain ⟨r, t, hs⟩ := hjoins.source ho
      exact (ha.remaining o r t hs).1
    obtain ⟨hchain, hval⟩ := hjoins.transfer (fun o _ r t hs => (ha.remaining o r t hs).2)
      (fun _ _ _ t _ hpos hm => (immature_congr hpos t).trans hm) fun _ _ hver => hver
    have hle := hchain.valueIn_le
    have h0 := hchain.valueOut_nonneg
    have h1 := hchain.valueOut_le
    have hsub : sub64 (valueIn w.files.diskTx w.chainView tx) tx.valueOut =
        valueIn w.files.diskTx w.chainView tx - tx.valueOut := wrap64_of_range (by omega) (by omega)
    have hmin := getMinFee_pos a.nBlockSize
    rw [← hval, hsub] at hfee
    have hadd : Taken E w p (a.add E tx (E.getLegacySigOpCount tx + E.getP2SHSigOpCount tx inputs)
        (sub64 (valueIn w.files.diskTx (overlay a.mapTestPool w.chainView) tx) tx.valueOut) q) := by
      refine ⟨ha.queued, ?_, ?_, ?_, ?_, ?_, ?_⟩
      · intro x hx
        rcases mem_append.1 hx with hx | hx
        · exact ha.candidates x hx
        · rw [mem_singleton.1 hx]
          exact htx
      · intro x hx
        rcases mem_append.1 hx with hx | hx
        · exact ha.joins x hx
        · rw [mem_singleton.1 hx]
          exact hchain
      · intro x hx
        rcases mem_append.1 hx with hx | hx
        · exact ha.paying x hx
        · rw [mem_singleton.1 hx]
          omega
      · have hnew := ha.remaining.connectTx E tx
        simp only [Assembly.add, flatMap_append, flatMap_cons, flatMap_nil, append_nil]
        rw [overlay_insert, hview]
        exact hnew
      · simp only [Assembly.add, flatMap_append, flatMap_cons, flatMap_nil, append_nil]
        exact nodup_append'.2 ⟨ha.nodup, hchain.spends_nodup, fun o ho ho' => hfree o ho' ho⟩
      · simp only [Assembly.add, paymentsIn, totalOut, map_append, map_cons, map_nil,
          sum_append, sum_cons]
        rw [ha.fees, ← hval, hsub, add64, wrap64_wrap_add]
        congr 1
        rw [paymentsIn, totalOut]
        omega
    have hkeep := release_queued (a := a.add E tx _ _ q) hadd.queued h
    obtain ⟨queue, o, rfl⟩ := release_eq h
    exact hadd.requeue _ hkeep

variable {fProofOfStake : Bool}

theorem consider_taken {nTime : ℕ} {t : TxPriority} (ha : Taken E w p a) (ht : Candidate w t.tx)
    (h : a.consider E ctx w args fProofOfStake p nTime t = .ok a') : Taken E w p a' := by
  unfold Assembly.consider at h
  split_ifs at h with hadmits
  · cases h
    exact ha
  · have hre : Taken E w p (a.reorder args t) := ha.requeue _ ha.queued
    obtain ⟨r, hr, h⟩ := except_bind_eq_ok.1 h
    cases r with
    | none =>
      cases h
      exact hre
    | some inputs =>
      exact connect_taken hre ht (fetchInputs_sound (tolerate_eq_some.1 hr)) h

/-- **Every run of the loop keeps the invariant.** -/
theorem assemble_taken {nTime fuel : ℕ} (ha : Taken E w p a)
    (h : assemble E ctx w args heap fProofOfStake p nTime fuel a = .ok a') : Taken E w p a' := by
  induction fuel generalizing a with
  | zero =>
    rw [assemble] at h
    split_ifs at h
    cases h
    exact ha
  | succ fuel ih =>
    rw [assemble] at h
    cases hpop : heap.pop a.fSortedByFee a.vecPriority with
    | none =>
      rw [hpop] at h
      cases h
      exact ha
    | some x =>
      obtain ⟨t, q⟩ := x
      rw [hpop] at h
      obtain ⟨hmem, rfl⟩ := HeapLayout.pop_eq_some hpop
      obtain ⟨b, hb, h⟩ := except_bind_eq_ok.1 h
      have hrest : Queued w (a.vecPriority.erase t) a.orphans :=
        ⟨fun u hu => ha.queued.queue u (mem_of_mem_erase hu), ha.queued.orphans⟩
      exact ih (consider_taken (ha.requeue _ hrest) (ha.queued.queue t hmem) hb) h

theorem createNewBlock_taken {key : Option (Vector UInt8 20)} {T : Template}
    (h : createNewBlock E ctx args heap w fProofOfStake key = .ok T) :
    ∃ p e nBits a, w.pindexBest = some p ∧ w.mapBlockIndex.lookup p = some e ∧
      T = fillTemplate ctx fProofOfStake p e (e.nHeight + 1) nBits
        (newCoinBase ctx (e.nHeight + 1) (if fProofOfStake then none else key)) a ∧
      (fProofOfStake = false → key.isSome) ∧ Taken E w p a := by
  obtain ⟨p, e, nBits, q, o, a, hbest, he, -, hkey, hcollect, hassemble, hT⟩ :=
    createNewBlock_spec h
  have hqueued : Queued w q o := by
    refine collect_queued (fun _ h => h) ⟨fun _ h => absurd h not_mem_nil, fun _ h => ?_⟩ hcollect
    exact absurd h not_mem_nil
  exact ⟨p, e, nBits, a, hbest, he, hT, hkey, assemble_taken (taken_init hqueued) hassemble⟩

end Espers
