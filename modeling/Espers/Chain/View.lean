import Espers.Chain.Inputs

/-!
# The transaction index as a function, and how transactions change it

A *view* is the transaction index as a function of the hash, whatever database, batch or map of
queued changes it is read from.  Connecting a transaction marks the slots of the outpoints it spends
and adds a record of its own (`connectTx`); disconnecting it clears the slots and removes the record
(`disconnectTx`).

* `disconnectTx_connectTx` : disconnecting undoes connecting, when the slots were null and the
  transaction had no record.
* `fetchInputs_sound` : `FetchInputs` for a block hands back the records of the view that the
  database and the queued changes give together, with the transactions they point to.
* `connectInputs_spec` : what `ConnectInputs` has checked and done when it succeeds.
-/

namespace Espers

open Exec List Except AList
open Option (map_some some bind_some getD_some)

/-- The transaction index, as a function of the hash. -/
abbrev View := Uint256 → Option CTxIndex

/-- What a handle reads. -/
def CTxDB.view (txdb : CTxDB) : View := txdb.readTxIndex

/-- The view with queued changes on top. -/
def overlay (q : MapTxIndex) (v : View) : View := fun h => (q.lookup h).or (v h)

@[simp] theorem overlay_empty (v : View) : overlay ∅ v = v := by
  funext h; simp [overlay]

theorem overlay_insert (q : MapTxIndex) (v : View) (h : Uint256) (e : CTxIndex) :
    overlay (q.insert h e) v = Function.update (overlay q v) h (some e) := by
  funext h'
  by_cases hh : h' = h
  · subst hh; simp [overlay]
  · simp [overlay, hh]

/-! ### Slots -/

/-- The slot of an outpoint: `some null` while it is unspent, `none` when there is no such
output. -/
def slot (v : View) (o : COutPoint) : Option CDiskTxPos := (v o.hash).bind fun e => e.vSpent[o.n]?

/-- The slots of transaction `h` after those of the outpoints `os` are set to `p`. -/
def setSlots (p : CDiskTxPos) (os : List COutPoint) (h : Uint256) (l : List CDiskTxPos) :
    List CDiskTxPos :=
  os.foldl (fun l o => if o.hash = h then l.set o.n p else l) l

/-- The view after the slots of the outpoints `os` are set to `p`. -/
def markAll (p : CDiskTxPos) (os : List COutPoint) (v : View) : View := fun h =>
  (v h).map fun e => { e with vSpent := setSlots p os h e.vSpent }

@[simp] theorem setSlots_nil (p : CDiskTxPos) (h : Uint256) (l : List CDiskTxPos) :
    setSlots p [] h l = l := rfl

theorem setSlots_cons (p : CDiskTxPos) (o : COutPoint) (os : List COutPoint) (h : Uint256)
    (l : List CDiskTxPos) :
    setSlots p (o :: os) h l = setSlots p os h (if o.hash = h then l.set o.n p else l) := rfl

theorem getElem?_setSlots (p : CDiskTxPos) (os : List COutPoint) (h : Uint256)
    (l : List CDiskTxPos) (i : ℕ) :
    (setSlots p os h l)[i]? = if ⟨h, i⟩ ∈ os then l[i]?.map fun _ => p else l[i]? := by
  induction os generalizing l with
  | nil => simp
  | cons o os ih =>
    rw [setSlots_cons, ih]
    obtain ⟨oh, on⟩ := o
    by_cases hh : oh = h
    · subst hh
      by_cases hi : on = i
      · subst hi
        by_cases hl : on < l.length
        · simp [hl]
        · simp [hl]
      · simp [hi, Ne.symm hi]
    · simp [hh, Ne.symm hh]

@[simp] theorem markAll_nil (p : CDiskTxPos) (v : View) : markAll p [] v = v := by
  funext h; simp [markAll]

theorem markAll_cons (p : CDiskTxPos) (o : COutPoint) (os : List COutPoint) (v : View) :
    markAll p (o :: os) v = markAll p os (markAll p [o] v) := by
  funext h
  simp only [markAll, Option.map_map]
  congr 1

theorem slot_markAll (p : CDiskTxPos) (os : List COutPoint) (v : View) (o : COutPoint) :
    slot (markAll p os v) o = if o ∈ os then (slot v o).map fun _ => p else slot v o := by
  obtain ⟨h, i⟩ := o
  simp only [slot, markAll]
  cases v h with
  | none => simp
  | some e => simp [getElem?_setSlots]

theorem markAll_eq_none {p : CDiskTxPos} {os : List COutPoint} {v : View} {h : Uint256} :
    markAll p os v h = none ↔ v h = none := by
  simp [markAll]

theorem markAll_singleton {p : CDiskTxPos} {o : COutPoint} {v : View} {e : CTxIndex}
    (h : v o.hash = some e) :
    markAll p [o] v = Function.update v o.hash (some { e with vSpent := e.vSpent.set o.n p }) := by
  funext h'
  by_cases hh : h' = o.hash
  · subst hh; simp [markAll, setSlots_cons, h]
  · simp [markAll, setSlots_cons, hh, Ne.symm hh]

/-- The view after a transaction at `pos` is connected. -/
def connectTx (E : Env) (pos : CDiskTxPos) (tx : CTransaction) (v : View) : View :=
  Function.update (markAll pos tx.spends v) (E.txHash tx) (some (.ofOutputs pos tx.vout.length))

/-- The view after a transaction is disconnected. -/
def disconnectTx (E : Env) (tx : CTransaction) (v : View) : View :=
  Function.update (markAll .null tx.spends v) (E.txHash tx) none

/-- Every outpoint the transaction consumes exists and is unspent. -/
def Spendable (v : View) (tx : CTransaction) : Prop := ∀ o ∈ tx.spends, slot v o = some .null

variable {E : Env} {v : View} {tx : CTransaction} {pos : CDiskTxPos}

theorem connectTx_eq_none {h : Uint256} :
    connectTx E pos tx v h = none ↔ v h = none ∧ h ≠ E.txHash tx := by
  by_cases hh : h = E.txHash tx
  · subst hh; simp [connectTx]
  · simp [connectTx, hh, markAll_eq_none]

theorem slot_connectTx_of_ne {o : COutPoint} (h : o.hash ≠ E.txHash tx) :
    slot (connectTx E pos tx v) o =
      if o ∈ tx.spends then (slot v o).map fun _ => pos else slot v o := by
  rw [← slot_markAll]
  simp [slot, connectTx, h]

theorem Spendable.hash_ne (hs : Spendable v tx) {h : Uint256} (hn : v h = none) {o : COutPoint}
    (ho : o ∈ tx.spends) : o.hash ≠ h := by
  rintro rfl
  have := hs o ho
  simp [slot, hn] at this

/-- **Disconnecting a transaction undoes connecting it.** -/
theorem disconnectTx_connectTx (hs : Spendable v tx) (hn : v (E.txHash tx) = none) :
    disconnectTx E tx (connectTx E pos tx v) = v := by
  funext h
  by_cases hh : h = E.txHash tx
  · subst hh; simp [disconnectTx, hn]
  · simp only [disconnectTx, connectTx, Function.update_of_ne hh, markAll]
    cases hv : v h with
    | none => rfl
    | some e =>
      simp only [map_some, some.injEq]
      congr 1
      apply ext_getElem?
      intro i
      simp only [getElem?_setSlots]
      split_ifs with hm
      · have := hs _ hm
        simp only [slot, hv, bind_some] at this
        simp [this]
      · rfl

/-! ### What `FetchInputs` hands back -/

section Fetch

variable {w : World} {ctx : Ctx} {txdb : CTxDB} {q : MapTxIndex}

/-- Every record of `inputs` is the one in the view, with the transaction it points to. -/
def Fetched (w : World) (v : View) (inputs : MapPrevTx) : Prop :=
  ∀ h e t, inputs.lookup h = some (e, t) → v h = some e ∧ w.files.diskTx e.pos = some t

theorem fetchInput_sound {h : Uint256} {r : CTxIndex × CTransaction}
    (hr : fetchInput w ctx txdb q true false h = .ok r) :
    overlay q txdb.view h = some r.1 ∧ w.files.diskTx r.1.pos = some r.2 := by
  simp only [fetchInput, except_bind_eq_ok, rejectIf_eq_ok, exists_const,
    Bool.true_and, and_true, Bool.not_false, ok.injEq] at hr
  obtain ⟨hf, -, hd, -, rfl⟩ := hr
  have hov : overlay q txdb.view h =
      if (q.lookup h).isSome then q.lookup h else txdb.readTxIndex h := by
    unfold overlay CTxDB.view
    cases q.lookup h <;> simp
  rw [hov]
  cases hfound : (if (q.lookup h).isSome then q.lookup h else txdb.readTxIndex h) with
  | none => exact absurd hfound hf
  | some e =>
    simp only [hfound, Option.isSome_some, map_some, getD_some, ↓reduceIte, true_and] at hd ⊢
    obtain ⟨t, ht⟩ := Option.ne_none_iff_exists'.1 hd
    simp [ht, World.diskTx_of_read ht]

theorem fetchLoop_sound {vin : List CTxIn} {m inputs : MapPrevTx}
    (hm : Fetched w (overlay q txdb.view) m)
    (h : fetchLoop w ctx txdb q true false vin m = .ok inputs) :
    Fetched w (overlay q txdb.view) inputs := by
  induction vin generalizing m with
  | nil =>
    simp only [fetchLoop, ok.injEq] at h
    exact h ▸ hm
  | cons txin vin ih =>
    simp only [fetchLoop] at h
    split_ifs at h with hc
    · exact ih hm h
    · obtain ⟨r, hr, h⟩ := except_bind_eq_ok.1 h
      refine ih (fun h' e t hl => ?_) h
      by_cases hh : h' = txin.prevout.hash
      · subst hh
        rw [lookup_insert, some.injEq] at hl
        subst hl
        exact fetchInput_sound hr
      · rw [lookup_insert_ne hh] at hl
        exact hm h' e t hl

theorem fetchInputs_sound {inputs : MapPrevTx}
    (h : fetchInputs w ctx txdb q true false tx = .ok inputs) :
    Fetched w (overlay q txdb.view) inputs := by
  have hempty : Fetched w (overlay q txdb.view) ∅ := fun h e t hl => by
    cases hl
  simp only [fetchInputs, Bool.false_eq_true, ↓reduceIte] at h
  split_ifs at h with hcb
  · cases h; exact hempty
  · simp only [except_bind_eq_ok, ok.injEq] at h
    obtain ⟨m, hm, _, -, rfl⟩ := h
    exact fetchLoop_sound hempty hm

end Fetch

/-! ### What `ConnectInputs` has checked -/

/-- The value of the output an outpoint names: the record of the view says where its transaction
lies. -/
def outValue (rd : CDiskTxPos → Option CTransaction) (v : View) (o : COutPoint) : ℤ :=
  ((((v o.hash).bind fun e => rd e.pos).bind fun t => t.vout[o.n]?).map CTxOut.nValue).getD 0

/-- The value coming in. -/
def valueIn (rd : CDiskTxPos → Option CTransaction) (v : View) (tx : CTransaction) : ℤ :=
  (tx.spends.map (outValue rd v)).sum

variable {inputs : MapPrevTx} {vin : List CTxIn}

/-- What the first loop of `ConnectInputs` has checked of an input when it gets through. -/
theorem checkInputs_cons {m : BlockMap} {p : Option Uint256} {txin : CTxIn} {a n : ℤ}
    (h : checkInputs E m p tx inputs a (txin :: vin) = .ok n) : ∃ r t txout,
    inputs.lookup txin.prevout.hash = some (r, t) ∧ t.vout[txin.prevout.n]? = some txout ∧
    txin.prevout.n < r.vSpent.length ∧ immature m p r t = false ∧ t.nTime ≤ tx.nTime ∧
    ¬ (isProtocolV3 E tx.nTime ∧ txout.isEmpty) ∧
    (moneyRange txout.nValue ∧ moneyRange (add64 a txout.nValue)) ∧
    checkInputs E m p tx inputs (add64 a txout.nValue) vin = .ok n := by
  simp only [checkInputs] at h
  cases hl : inputs.lookup txin.prevout.hash with
  | none => rw [hl] at h; cases h
  | some rt =>
    rw [hl] at h
    cases hout : rt.2.vout[txin.prevout.n]? with
    | none => simp only [hout] at h; cases h
    | some txout =>
      simp only [hout, except_bind_eq_ok, rejectIf_eq_ok, exists_const, not_or,
        Bool.not_eq_eq_eq_not, Bool.not_true, Bool.not_eq_false, not_le, not_lt,
        Bool.not_eq_true] at h
      exact ⟨rt.1, rt.2, txout, rfl, hout, h⟩

theorem checkInputs_spec {w : World} {m : BlockMap} {p : Option Uint256}
    (hf : Fetched w v inputs) {a r : ℤ} (ha : 0 ≤ a)
    (ha' : a ≤ 5000000000000000000) (h : checkInputs E m p tx inputs a vin = .ok r) :
    r = a + (vin.map fun txin => outValue w.files.diskTx v txin.prevout).sum ∧
      0 ≤ r ∧ r ≤ 5000000000000000000 ∧ sumInputs inputs a vin = .ok r ∧
      ∀ txin ∈ vin, (inputs.lookup txin.prevout.hash).isSome ∧ (slot v txin.prevout).isSome := by
  induction vin generalizing a with
  | nil =>
    simp only [checkInputs, ok.injEq] at h
    subst h
    simp [sumInputs, ha, ha']
  | cons txin vin ih =>
    obtain ⟨e, t, txout, hl, ho, hn, -, -, -, ⟨hmv, hms⟩, h⟩ := checkInputs_cons h
    obtain ⟨hv, hrd⟩ := hf _ _ _ hl
    have hmv' := moneyRange_iff.1 hmv
    have hms' := moneyRange_iff.1 hms
    have hadd := add64_of_moneyRange ha ha' hmv'.1 hmv'.2 hms
    obtain ⟨h1, h2, h3, h4, h5⟩ := ih hms'.1 hms'.2 h
    have hval : outValue w.files.diskTx v txin.prevout = txout.nValue := by
      simp [outValue, hv, hrd, ho]
    refine ⟨?_, h2, h3, ?_, ?_⟩
    · rw [h1, hadd, map_cons, sum_cons, hval]; omega
    · simp [sumInputs, getOutputFor, hl, ho, h4]
    · intro t' ht'
      rcases mem_cons.1 ht' with rfl | ht'
      · exact ⟨by simp [hl], by simp [slot, hv, hn]⟩
      · exact h5 t' ht'

variable {q q' : MapTxIndex}

/-- The second loop of `ConnectInputs` marks the outpoints, for a block and for a template. -/
theorem spendInputs_marks {nBestHeight : ℤ} {fBlock fMiner : Bool} {flags i : ℕ}
    (hmark : (fBlock || fMiner) = true)
    (hf : ∀ h e t, inputs.lookup h = some (e, t) → overlay q v h = some e)
    (hs : ∀ txin ∈ vin, (slot (overlay q v) txin.prevout).isSome)
    (h : spendInputs E nBestHeight tx pos fBlock fMiner flags i vin inputs q = .ok q') :
    overlay q' v = markAll pos (vin.map CTxIn.prevout) (overlay q v) ∧
      ((vin.map CTxIn.prevout).Nodup →
        ∀ txin ∈ vin, slot (overlay q v) txin.prevout = some .null) := by
  induction vin generalizing i inputs q with
  | nil =>
    simp only [spendInputs, ok.injEq] at h
    subst h
    simp
  | cons txin vin ih =>
    simp only [spendInputs] at h
    cases hl : inputs.lookup txin.prevout.hash with
    | none => rw [hl] at h; cases h
    | some et =>
      obtain ⟨e, t⟩ := et
      have hv := hf _ _ _ hl
      rw [hl] at h
      simp only [except_bind_eq_ok, rejectIf_eq_ok, exists_const, not_not, hmark, ↓reduceIte] at h
      obtain ⟨hnull, _, -, h⟩ := h
      have hslot : slot (overlay q v) txin.prevout = some .null := by
        have hsome := hs txin mem_cons_self
        simp only [slot, hv, bind_some] at hsome ⊢
        obtain ⟨p, hp⟩ := Option.isSome_iff_exists.1 hsome
        rw [getD_eq_getElem?_getD, hp, getD_some, CDiskTxPos.isNull_iff] at hnull
        rw [hp, hnull]
      have hmark := markAll_singleton (p := pos) hv
      have hov : overlay (q.insert txin.prevout.hash
          { e with vSpent := e.vSpent.set txin.prevout.n pos }) v =
          markAll pos [txin.prevout] (overlay q v) := by
        rw [overlay_insert, hmark]
      obtain ⟨h1, h2⟩ := ih (fun h' e' t' hl' => by
          by_cases hh : h' = txin.prevout.hash
          · subst hh
            rw [lookup_insert, some.injEq, Prod.mk.injEq] at hl'
            rw [hov, hmark, ← hl'.1]
            simp
          · rw [lookup_insert_ne hh] at hl'
            rw [hov, hmark, Function.update_of_ne hh]
            exact hf _ _ _ hl')
        (fun t' ht' => by
          rw [hov, slot_markAll]
          have := hs t' (mem_cons_of_mem _ ht')
          split_ifs <;> simpa using this) h
      refine ⟨by rw [h1, hov, map_cons, ← markAll_cons], fun hnd t' ht' => ?_⟩
      rw [map_cons, nodup_cons] at hnd
      rcases mem_cons.1 ht' with rfl | ht'
      · exact hslot
      · have h3 := h2 hnd.2 t' ht'
        rw [hov, slot_markAll] at h3
        have hne : t'.prevout ∉ [txin.prevout] := by
          rw [mem_singleton]
          rintro heq
          exact hnd.1 (heq ▸ mem_map_of_mem ht')
        rwa [if_neg hne] at h3

theorem valueOut_le_of_checkFees {a : ℤ} {u : Unit} (hs : TxSane tx) (hst : tx.isCoinStake = false)
    (h : checkFees tx a = .ok u) : tx.valueOut ≤ a := by
  simp only [checkFees, hst, Bool.false_eq_true, ↓reduceIte, hs.getValueOut, except_ok_bind,
    except_bind_eq_ok, rejectIf_eq_ok, exists_and_left, not_lt] at h
  exact h.1

/-- What a successful `ConnectInputs` for a block has checked, and its effect on the view. -/
theorem connectInputs_spec {w : World} {p : Option Uint256} {fMiner : Bool} {flags : ℕ}
    (hsane : TxSane tx) (hcb : tx.isCoinBase = false) (hf : Fetched w (overlay q v) inputs)
    (h : connectInputs E w tx inputs q pos p true fMiner flags = .ok q') :
    overlay q' v = markAll pos tx.spends (overlay q v) ∧ Spendable (overlay q v) tx ∧
      getValueMapIn inputs tx = .ok (valueIn w.files.diskTx (overlay q v) tx) ∧
      0 ≤ valueIn w.files.diskTx (overlay q v) tx ∧
      valueIn w.files.diskTx (overlay q v) tx ≤ 5000000000000000000 ∧
      (tx.isCoinStake = false → tx.valueOut ≤ valueIn w.files.diskTx (overlay q v) tx) := by
  simp only [connectInputs, hcb, Bool.false_eq_true, ↓reduceIte, except_bind_eq_ok, ok.injEq] at h
  obtain ⟨a, hchk, q1, hsp, _, hfees, rfl⟩ := h
  obtain ⟨h1, h2, h3, h4, h5⟩ := checkInputs_spec hf le_rfl (by norm_num) hchk
  obtain ⟨h6, h7⟩ := spendInputs_marks rfl (fun h e t hl => (hf h e t hl).1)
    (fun txin hin => (h5 txin hin).2) hsp
  have hspends : tx.spends = tx.vin.map CTxIn.prevout := by simp [CTransaction.spends, hcb]
  have hval : valueIn w.files.diskTx (overlay q v) tx = a := by
    rw [valueIn, hspends, map_map, h1, zero_add]
    rfl
  refine ⟨by rw [h6, hspends], fun o ho => ?_, ?_, by rw [hval]; exact h2, by rw [hval]; exact h3,
    fun hst => ?_⟩
  · rw [hspends, mem_map] at ho
    obtain ⟨txin, hin, rfl⟩ := ho
    exact h7 hsane.nodup txin hin
  · rw [getValueMapIn, hcb, hval]
    exact h4
  · rw [hval]
    exact valueOut_le_of_checkFees hsane hst hfees

end Espers
