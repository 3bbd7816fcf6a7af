import Espers.Chain.Mempool

/-!
# Offering a transaction to the memory pool

`AcceptToMemoryPool` answers `true` or `false` to every transaction: the exceptions and assertions
of the functions it calls are guarded by the checks before them.

* `checkAccept_answers` : **`AcceptToMemoryPool` always returns.**
* `fMissingInputs` : the answer is `false` because a parent is not known.
-/

namespace Espers

open Exec List AList

variable {α β : Type} {E : Env} {ctx : Ctx} {w : World} {tx : CTransaction} {fLimitFree : Bool}
  {inputs : MapPrevTx} {vin : List CTxIn}

/-! ### Checks that only answer -/

/-- The check stops with an answer `false` only. -/
def Answers (x : Except Stop α) : Prop := ∀ e, x = .error e → e.returnsFalse = true

namespace Answers

theorem ok (a : α) : Answers (.ok a) := by
  intro e h
  cases h

theorem error {e : Stop} (he : e.returnsFalse = true) : Answers (.error e : Except Stop α) := by
  intro e' h
  cases h
  exact he

theorem rejectIf {c : Prop} [Decidable c] {e : Stop} (he : e.returnsFalse = true) :
    Answers (Exec.rejectIf c e) := by
  unfold Exec.rejectIf
  split_ifs
  · exact error he
  · exact ok ()

variable {x : Except Stop α}

theorem bind {f : α → Except Stop β} (hx : Answers x)
    (hf : ∀ a, x = .ok a → Answers (f a)) : Answers (x >>= f) := by
  intro e h
  rcases except_bind_eq_error.1 h with h | ⟨a, ha, h⟩
  · exact hx e h
  · exact hf a ha e h

theorem mapError {f : Stop → Stop} (hx : Answers x)
    (hf : ∀ e, e.returnsFalse = true → (f e).returnsFalse = true) : Answers (x.mapError f) := by
  cases x with
  | ok a => exact ok a
  | error e => exact error (hf e (hx e rfl))

theorem report {own : Stop} (hx : Answers x) (hown : own.returnsFalse = true) :
    Answers (x.mapError (Stop.report own)) := by
  refine hx.mapError fun e he => ?_
  rw [Stop.report, if_pos he]
  exact hown

end Answers

theorem checkOutputs_answers (tx : CTransaction) (nValueOut : ℤ) (vout : List CTxOut) :
    Answers (checkOutputs tx nValueOut vout) := by
  induction vout generalizing nValueOut with
  | nil => exact .ok _
  | cons txout vout ih =>
    refine .bind (.rejectIf rfl) fun _ _ => .bind (.rejectIf rfl) fun _ _ =>
      .bind (.rejectIf rfl) fun _ _ => .bind (.rejectIf rfl) fun _ _ => ih _

theorem checkDuplicates_answers (seen : List COutPoint) (vin : List CTxIn) :
    Answers (checkDuplicates seen vin) := by
  induction vin generalizing seen with
  | nil => exact .ok _
  | cons txin vin ih => exact .bind (.rejectIf rfl) fun _ _ => ih _

theorem checkTransaction_answers (maxBlockSize : ℕ) (tx : CTransaction) :
    Answers (checkTransaction maxBlockSize tx) := by
  refine .bind (.rejectIf rfl) fun _ _ => .bind (.rejectIf rfl) fun _ _ =>
    .bind (.rejectIf rfl) fun _ _ => .bind (checkOutputs_answers _ _ _) fun _ _ =>
    .bind (checkDuplicates_answers _ _) fun _ _ => ?_
  split_ifs
  · exact .rejectIf rfl
  · exact .rejectIf rfl

/-! ### The inputs -/

/-- What is fetched: for each input its parent, with the output it spends. -/
def Covers (inputs : MapPrevTx) (vin : List CTxIn) : Prop :=
  ∀ txin ∈ vin, ∃ txindex txPrev, inputs.lookup txin.prevout.hash = some (txindex, txPrev) ∧
    txin.prevout.n < txPrev.vout.length

theorem fetchInput_answers (w : World) (ctx : Ctx) (txdb : CTxDB) (mapTxPool : MapTxIndex)
    (fBlock fInFlight : Bool) (hash : Uint256) :
    Answers (fetchInput w ctx txdb mapTxPool fBlock fInFlight hash) :=
  .bind (.rejectIf rfl) fun _ _ => .bind (.rejectIf rfl) fun _ _ => .bind (.rejectIf rfl) fun _ _ =>
    .bind (.rejectIf rfl) fun _ _ => .ok _

theorem fetchLoop_answers (w : World) (ctx : Ctx) (txdb : CTxDB) (mapTxPool : MapTxIndex)
    (fBlock fInFlight : Bool) (vin : List CTxIn) (inputs : MapPrevTx) :
    Answers (fetchLoop w ctx txdb mapTxPool fBlock fInFlight vin inputs) := by
  induction vin generalizing inputs with
  | nil => exact .ok _
  | cons txin vin ih =>
    unfold fetchLoop
    split_ifs
    · exact ih _
    · exact .bind (fetchInput_answers _ _ _ _ _ _ _) fun _ _ => ih _

/-- The loop fetches the parent of each input. -/
theorem fetchLoop_lookup {txdb : CTxDB} {mapTxPool : MapTxIndex} {fBlock fInFlight : Bool}
    {inputs' : MapPrevTx} (h : fetchLoop w ctx txdb mapTxPool fBlock fInFlight vin inputs =
    .ok inputs') : (∀ hash, (inputs.lookup hash).isSome = true →
    (inputs'.lookup hash).isSome = true) ∧
      ∀ txin ∈ vin, (inputs'.lookup txin.prevout.hash).isSome = true := by
  induction vin generalizing inputs with
  | nil =>
    cases h
    exact ⟨fun _ hs => hs, by simp⟩
  | cons txin vin ih =>
    unfold fetchLoop at h
    split_ifs at h with hhave
    · obtain ⟨h1, h2⟩ := ih h
      refine ⟨h1, ?_⟩
      rw [forall_mem_cons]
      exact ⟨h1 _ hhave, h2⟩
    · obtain ⟨r, -, h⟩ := except_bind_eq_ok.1 h
      obtain ⟨h1, h2⟩ := ih h
      have hkeep : ∀ hash, (inputs.lookup hash).isSome = true →
          ((inputs.insert txin.prevout.hash r).lookup hash).isSome = true := by
        intro hash hs
        by_cases heq : hash = txin.prevout.hash
        · subst heq
          rw [lookup_insert]
          rfl
        · rwa [lookup_insert_ne heq]
      refine ⟨fun hash hs => h1 hash (hkeep hash hs), ?_⟩
      rw [forall_mem_cons]
      refine ⟨h1 _ ?_, h2⟩
      rw [lookup_insert]
      rfl

theorem checkPrevouts_answers (h : ∀ txin ∈ vin, (inputs.lookup txin.prevout.hash).isSome = true) :
    Answers (checkPrevouts inputs vin) := by
  induction vin with
  | nil => exact .ok _
  | cons txin vin ih =>
    rw [forall_mem_cons] at h
    obtain ⟨r, hr⟩ := Option.isSome_iff_exists.1 h.1
    unfold checkPrevouts
    rw [hr]
    exact .bind (.rejectIf rfl) fun _ _ => ih h.2

theorem covers_of_checkPrevouts (h : checkPrevouts inputs vin = .ok ()) : Covers inputs vin := by
  induction vin with
  | nil => simp [Covers]
  | cons txin vin ih =>
    unfold checkPrevouts at h
    cases hr : inputs.lookup txin.prevout.hash with
    | none =>
      rw [hr] at h
      cases h
    | some r =>
      simp only [hr, except_bind_eq_ok, rejectIf_eq_ok, exists_const, not_or, not_le] at h
      unfold Covers
      rw [forall_mem_cons]
      exact ⟨⟨r.1, r.2, hr, h.1.1⟩, ih h.2⟩

theorem fetchInputs_answers (w : World) (ctx : Ctx) (txdb : CTxDB) (mapTxPool : MapTxIndex)
    (fBlock fInFlight : Bool) (tx : CTransaction) :
    Answers (fetchInputs w ctx txdb mapTxPool fBlock fInFlight tx) := by
  unfold fetchInputs
  split_ifs
  · exact .ok _
  · exact .bind (fetchLoop_answers _ _ _ _ _ _ _ _) fun _ _ => .ok _
  · refine .bind (fetchLoop_answers _ _ _ _ _ _ _ _) fun inputs hloop => ?_
    exact .bind (checkPrevouts_answers (fetchLoop_lookup hloop).2) fun _ _ => .ok _

theorem fetchInputs_covers {txdb : CTxDB} {mapTxPool : MapTxIndex} {fBlock : Bool}
    (hcb : tx.isCoinBase = false)
    (h : fetchInputs w ctx txdb mapTxPool fBlock false tx = .ok inputs) : Covers inputs tx.vin := by
  simp only [fetchInputs, hcb, Bool.false_eq_true, ↓reduceIte, except_bind_eq_ok] at h
  obtain ⟨inputs', -, _, hcheck, hend⟩ := h
  cases hend
  exact covers_of_checkPrevouts hcheck

theorem getOutputFor_of_covers {txin : CTxIn} (h : Covers inputs vin) (hin : txin ∈ vin) :
    ∃ txout, getOutputFor txin inputs = .ok txout := by
  obtain ⟨txindex, txPrev, hl, hn⟩ := h txin hin
  refine ⟨txPrev.vout[txin.prevout.n], ?_⟩
  simp only [getOutputFor, hl, getElem?_eq_getElem hn]

theorem sumInputs_answers (h : Covers inputs vin) (nResult : ℤ) :
    Answers (sumInputs inputs nResult vin) := by
  induction vin generalizing nResult with
  | nil => exact .ok _
  | cons txin vin ih =>
    obtain ⟨txout, hout⟩ := getOutputFor_of_covers h mem_cons_self
    unfold sumInputs
    rw [hout]
    exact ih (fun t ht => h t (mem_cons_of_mem _ ht)) _

theorem getValueMapIn_answers (h : Covers inputs tx.vin) : Answers (getValueMapIn inputs tx) := by
  unfold getValueMapIn
  split_ifs
  · exact .ok _
  · exact sumInputs_answers h 0

/-! ### Connecting -/

theorem checkInputs_answers (m : BlockMap) (pindexBlock : Option Uint256)
    (h : Covers inputs vin) (nValueIn : ℤ) :
    Answers (checkInputs E m pindexBlock tx inputs nValueIn vin) := by
  induction vin generalizing nValueIn with
  | nil => exact .ok _
  | cons txin vin ih =>
    obtain ⟨txindex, txPrev, hl, hn⟩ := h txin mem_cons_self
    unfold checkInputs
    simp only [hl, getElem?_eq_getElem hn]
    exact .bind (.rejectIf rfl) fun _ _ => .bind (.rejectIf rfl) fun _ _ => .bind (.rejectIf rfl)
      fun _ _ => .bind (.rejectIf rfl) fun _ _ => .bind (.rejectIf rfl) fun _ _ =>
      ih (fun t ht => h t (mem_cons_of_mem _ ht)) _

theorem checkSignature_answers (nBestHeight : ℤ) (txPrev tx : CTransaction) (i : ℕ) (fBlock : Bool)
    (flags : ℕ) : Answers (checkSignature E nBestHeight txPrev tx i fBlock flags) := by
  unfold checkSignature
  split_ifs
  · exact .ok _
  · exact .ok _
  · exact .error rfl
  · exact .error rfl

theorem spendInputs_answers (nBestHeight : ℤ) (posThisTx : CDiskTxPos) (fBlock fMiner : Bool)
    (flags i : ℕ) (mapTestPool : MapTxIndex)
    (h : ∀ txin ∈ vin, (inputs.lookup txin.prevout.hash).isSome = true) :
    Answers (spendInputs E nBestHeight tx posThisTx fBlock fMiner flags i vin inputs
    mapTestPool) := by
  induction vin generalizing i inputs mapTestPool with
  | nil => exact .ok _
  | cons txin vin ih =>
    rw [forall_mem_cons] at h
    obtain ⟨r, hr⟩ := Option.isSome_iff_exists.1 h.1
    unfold spendInputs
    simp only [hr]
    have hstop : (if fMiner then Stop.refuse else
        Stop.error "ConnectInputs() : prev tx already used").returnsFalse = true := by
      split_ifs <;> rfl
    refine .bind (.rejectIf hstop) fun _ _ => .bind (checkSignature_answers _ _ _ _ _ _) fun _ _ =>
      ih _ _ fun t ht => ?_
    -- the parent with one more output spent is fetched still
    by_cases heq : t.prevout.hash = txin.prevout.hash
    · rw [heq, lookup_insert]
      rfl
    · rw [lookup_insert_ne heq]
      exact h.2 t ht

theorem checkFees_answers (hsane : TxSane tx) (nValueIn : ℤ) : Answers (checkFees tx nValueIn) := by
  unfold checkFees
  split_ifs
  · exact .ok _
  · rw [hsane.getValueOut]
    exact .bind (.ok _) fun _ _ => .bind (.rejectIf rfl) fun _ _ => .bind (.rejectIf rfl) fun _ _ =>
      .rejectIf rfl

theorem connectInputs_answers (hsane : TxSane tx) (h : Covers inputs tx.vin)
    (mapTestPool : MapTxIndex) (posThisTx : CDiskTxPos) (pindexBlock : Option Uint256)
    (fBlock fMiner : Bool) (flags : ℕ) :
    Answers (connectInputs E w tx inputs mapTestPool posThisTx pindexBlock fBlock
    fMiner flags) := by
  have hsome : ∀ txin ∈ tx.vin, (inputs.lookup txin.prevout.hash).isSome = true := by
    intro txin hin
    obtain ⟨txindex, txPrev, hl, -⟩ := h txin hin
    rw [hl]
    rfl
  unfold connectInputs
  split_ifs
  · exact .ok _
  · exact .bind (checkInputs_answers _ _ h 0) fun _ _ =>
      .bind (spendInputs_answers _ _ _ _ _ _ _ hsome) fun _ _ =>
      .bind (checkFees_answers hsane _) fun _ _ => .ok _

/-- **`AcceptToMemoryPool` always returns.** -/
theorem checkAccept_answers (E : Env) (ctx : Ctx) (w : World) (tx : CTransaction)
    (fLimitFree : Bool) : Answers (checkAccept E ctx w tx fLimitFree) := by
  refine .bind ((checkTransaction_answers _ _).report rfl) fun _ hcheck => ?_
  have hsane := checkTransaction_spec (except_mapError_eq_ok.1 hcheck)
  refine .bind (.rejectIf rfl) fun _ hcb => ?_
  have hcb' : tx.isCoinBase = false := by simpa using hcb
  refine .bind (.rejectIf rfl) fun _ _ => .bind (.rejectIf rfl) fun _ _ => .bind (.rejectIf rfl)
    fun _ _ => .bind (.rejectIf rfl) fun _ _ => .bind (.rejectIf rfl) fun _ _ => ?_
  refine .bind ((fetchInputs_answers _ _ _ _ _ _ _).mapError fun e he => ?_) fun inputs hfetch => ?_
  · cases e <;> first | rfl | exact he
  have hcovers := fetchInputs_covers hcb' (except_mapError_eq_ok.1 hfetch)
  refine .bind (.rejectIf rfl) fun _ _ => .bind (.rejectIf rfl) fun _ _ =>
    .bind (getValueMapIn_answers hcovers) fun nValueIn _ => ?_
  rw [hsane.getValueOut]
  refine .bind (.ok _) fun _ _ => .bind (.bind (.rejectIf rfl) fun _ _ => .rejectIf rfl) fun _ _ =>
    ?_
  exact .bind ((connectInputs_answers hsane hcovers _ _ _ _ _ _).report rfl) fun _ _ =>
    .bind ((connectInputs_answers hsane hcovers _ _ _ _ _ _).report rfl) fun _ _ => .ok _

theorem checkAccept_pool {u : Unit} (h : checkAccept E ctx w tx fLimitFree = .ok u) :
    TxSane tx ∧ w.mempool.mapTx.lookup (E.txHash tx) = none ∧
      ∀ txin ∈ tx.vin, w.mempool.mapNextTx.lookup txin.prevout = none := by
  simp only [checkAccept, except_bind_eq_ok, except_mapError_eq_ok, rejectIf_eq_ok, exists_and_left] at h
  obtain ⟨_, hcheck, -, -, -, hid, hin, -⟩ := h
  refine ⟨checkTransaction_spec hcheck, by simpa [CTxMemPool.contains] using hid, ?_⟩
  intro txin htxin
  simp only [any_eq_true, not_exists, not_and, Bool.not_eq_true, Option.isSome_eq_false_iff,
    Option.isNone_iff_eq_none] at hin
  exact hin txin htxin

/-- The checks of `AcceptToMemoryPool` before `FetchInputs`. -/
def checkBeforeInputs (E : Env) (w : World) (tx : CTransaction) : Except Stop Unit := do
  checkTransaction w.maxBlockSize tx
  rejectIf tx.isCoinBase (.dos 100 "AcceptToMemoryPool : coinbase as individual tx")
  rejectIf tx.isCoinStake (.dos 100 "AcceptToMemoryPool : coinstake as individual tx")
  rejectIf (!E.testNet ∧ !E.isStandardTx tx) (.error "AcceptToMemoryPool : nonstandard transaction")
  rejectIf (w.mempool.contains (E.txHash tx)) .refuse
  rejectIf (tx.vin.any fun txin => (w.mempool.mapNextTx.lookup txin.prevout).isSome) .refuse
  rejectIf (w.txdb.containsTx (E.txHash tx)) .refuse

/-- `AcceptToMemoryPool` sets `*pfMissingInputs`: `FetchInputs` failed and did not set
`fInvalid`. -/
def fMissingInputs (E : Env) (ctx : Ctx) (w : World) (tx : CTransaction) : Bool :=
  match checkBeforeInputs E w tx, fetchInputs w ctx w.txdb.fresh ∅ false false tx with
  | .ok _, .error (.error _) => true
  | _, _ => false

end Espers
