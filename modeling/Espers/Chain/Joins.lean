import Espers.Chain.Files

/-!
# Transactions that join a chain

`FetchInputs` and `ConnectInputs` read the records of the inputs, check them and mark them.  What
they ask for can be said of the view alone.

* `Source` : an outpoint is unspent, and the transaction that its record points to can be read.
* `Joins` : a payment passes the checks of its inputs on a view.
* `Joins.transfer` : so it does on any other view with the same sources.
* `Joins.connects` : **a payment that joins the view is fetched and connected**, and the pass of
  `ConnectBlock` over it ends well or with a verdict that is not about its inputs
  (`connectTransaction_of_joins`).
-/

namespace Espers

open Exec List AList
open Option (bind_some some)

/-! ### Sources -/

/-- The outpoint is unspent in the view, and its transaction can be read where the record says. -/
structure Source (rd : CDiskTxPos → Option CTransaction) (v : View) (o : COutPoint) (e : CTxIndex)
    (t : CTransaction) : Prop where
  record : v o.hash = some e
  read : rd e.pos = some t
  unspent : e.vSpent[o.n]? = some .null

/-- The checks of an input that need its record `e`, which points to `t`. -/
structure InputGood (E : Env) (m : BlockMap) (p : Option Uint256) (flags : ℕ) (tx : CTransaction)
    (i : ℕ) (txin : CTxIn) (e : CTxIndex) (t : CTransaction) : Prop where
  mature : immature m p e t = false
  order : t.nTime ≤ tx.nTime
  output : ∃ txout, t.vout[txin.prevout.n]? = some txout ∧
    ¬ (isProtocolV3 E tx.nTime ∧ txout.isEmpty) ∧ moneyRange txout.nValue
  signed : E.verifySignature t tx i flags = true

/-- A payment passes the checks of `FetchInputs` and `ConnectInputs` on a view. -/
structure Joins (E : Env) (m : BlockMap) (p : Option Uint256)
    (rd : CDiskTxPos → Option CTransaction) (v : View) (flags : ℕ) (tx : CTransaction) : Prop where
  notCoinBase : tx.isCoinBase = false
  notCoinStake : tx.isCoinStake = false
  inputs : ∀ i txin, tx.vin[i]? = some txin →
    ∃ e t, Source rd v txin.prevout e t ∧ InputGood E m p flags tx i txin e t
  nodup : (tx.vin.map CTxIn.prevout).Nodup
  valueIn_le : valueIn rd v tx ≤ 5000000000000000000
  getValueOut : tx.getValueOut = .ok tx.valueOut
  valueOut_nonneg : 0 ≤ tx.valueOut
  valueOut_le : tx.valueOut ≤ valueIn rd v tx

variable {E : Env} {m m' : BlockMap} {p p' : Option Uint256}
  {rd rd' : CDiskTxPos → Option CTransaction} {v v' : View} {flags flags' : ℕ} {tx : CTransaction}
  {o : COutPoint} {r : CTxIndex} {t : CTransaction}

theorem Source.outValue (h : Source rd v o r t) :
    outValue rd v o = ((t.vout[o.n]?).map CTxOut.nValue).getD 0 := by
  simp only [Espers.outValue, h.record, bind_some, h.read]

theorem Source.outValue_eq {r' : CTxIndex} (h : Source rd v o r t) (h' : Source rd' v' o r' t) :
    Espers.outValue rd' v' o = Espers.outValue rd v o := by
  rw [h.outValue, h'.outValue]

theorem InputGood.value {i : ℕ} {txin : CTxIn} (hs : Source rd v txin.prevout r t)
    (h : InputGood E m p flags tx i txin r t) : 0 ≤ outValue rd v txin.prevout ∧
      outValue rd v txin.prevout ≤ 5000000000000000000 := by
  obtain ⟨txout, hout, -, hmoney⟩ := h.output
  rw [hs.outValue, hout]
  exact moneyRange_iff.1 hmoney

theorem Joins.spends (h : Joins E m p rd v flags tx) : tx.spends = tx.vin.map CTxIn.prevout := by
  rw [CTransaction.spends, h.notCoinBase]
  rfl

theorem Joins.spends_nodup (h : Joins E m p rd v flags tx) : tx.spends.Nodup := by
  rw [h.spends]
  exact h.nodup

theorem Joins.source (h : Joins E m p rd v flags tx) (ho : o ∈ tx.spends) :
    ∃ r t, Source rd v o r t := by
  rw [h.spends, mem_map] at ho
  obtain ⟨txin, hin, rfl⟩ := ho
  obtain ⟨i, hi⟩ := mem_iff_getElem?.1 hin
  obtain ⟨r, t, hs, -⟩ := h.inputs i txin hi
  exact ⟨r, t, hs⟩

theorem valueIn_congr (h : ∀ o ∈ tx.spends, outValue rd' v' o = outValue rd v o) :
    valueIn rd' v' tx = valueIn rd v tx := by
  unfold valueIn
  rw [map_congr_left h]

/-- **The checks carry over to another view** on which the outpoints spent have sources at the same
places, and to a tip and flags that are not stricter. -/
theorem Joins.transfer (h : Joins E m p rd v flags tx)
    (hsource : ∀ o ∈ tx.spends, ∀ r t, Source rd v o r t → ∃ r', Source rd' v' o r' t ∧
    r'.pos = r.pos) (hmature : ∀ o r r' t, Source rd v o r t → r'.pos = r.pos →
    immature m p r t = false → immature m' p' r' t = false)
    (hflags : ∀ t i, E.verifySignature t tx i flags = true →
      E.verifySignature t tx i flags' = true) :
    Joins E m' p' rd' v' flags' tx ∧ valueIn rd' v' tx = valueIn rd v tx := by
  have hval : valueIn rd' v' tx = valueIn rd v tx := by
    refine valueIn_congr fun o ho => ?_
    obtain ⟨r, t, hs⟩ := h.source ho
    obtain ⟨r', hs', -⟩ := hsource o ho r t hs
    exact hs.outValue_eq hs'
  refine ⟨⟨h.notCoinBase, h.notCoinStake, fun i txin hi => ?_, h.nodup, hval ▸ h.valueIn_le,
    h.getValueOut, h.valueOut_nonneg, hval ▸ h.valueOut_le⟩, hval⟩
  obtain ⟨r, t, hs, hg⟩ := h.inputs i txin hi
  have ho : txin.prevout ∈ tx.spends := by
    rw [h.spends]
    exact mem_map_of_mem (mem_of_getElem? hi)
  obtain ⟨r', hs', hpos⟩ := hsource _ ho r t hs
  exact ⟨r', t, hs', hmature _ r r' t hs hpos hg.mature, hg.order, hg.output, hflags t i hg.signed⟩

/-! ### Fetching -/

section Fetch

variable {w : World} {ctx : Ctx} {txdb : CTxDB} {q : MapTxIndex}

/-- A record that points to a transaction on disk is fetched, with the transaction. -/
theorem fetchInput_of_source (h : Source (w.readTxFromDisk ctx) (overlay q txdb.view) o r t) :
    fetchInput w ctx txdb q true false o.hash = .ok (r, t) := by
  have hfound : (if true && (q.lookup o.hash).isSome then q.lookup o.hash
      else txdb.readTxIndex o.hash) = some r := by
    rw [← h.record]
    unfold overlay CTxDB.view
    cases q.lookup o.hash <;> rfl
  -- no transaction is stored where those in memory are said to be
  have hmem : (r.pos == CDiskTxPos.inMemory) = false := by
    rw [beq_eq_false_iff_ne]
    intro heq
    have hdisk := World.diskTx_of_read h.read
    rw [heq, diskTx_inMemory] at hdisk
    cases hdisk
  unfold fetchInput
  simp only [hfound]
  simp [hmem, h.read, rejectIf]

variable {vin : List CTxIn}

/-- The loop of `FetchInputs` gets through, and what it hands back covers the inputs. -/
theorem fetchLoop_of_sources (inputs : MapPrevTx)
    (hvin : ∀ txin ∈ vin, ∃ r t,
      Source (w.readTxFromDisk ctx) (overlay q txdb.view) txin.prevout r t) :
    ∃ inputs', fetchLoop w ctx txdb q true false vin inputs = .ok inputs' ∧
      (∀ hash, (inputs.lookup hash).isSome → (inputs'.lookup hash).isSome) ∧
      ∀ txin ∈ vin, (inputs'.lookup txin.prevout.hash).isSome := by
  induction vin generalizing inputs with
  | nil => exact ⟨inputs, rfl, fun _ h => h, fun _ h => absurd h not_mem_nil⟩
  | cons txin vin ih =>
    have hrest := fun x hx => hvin x (mem_cons_of_mem _ hx)
    rw [fetchLoop]
    by_cases hgot : (inputs.lookup txin.prevout.hash).isSome
    · obtain ⟨inputs', hrun, hkeep, hcover⟩ := ih inputs hrest
      rw [if_pos hgot]
      refine ⟨inputs', hrun, hkeep, fun x hx => ?_⟩
      rcases mem_cons.1 hx with rfl | hx
      · exact hkeep _ hgot
      · exact hcover x hx
    · obtain ⟨r, t, hs⟩ := hvin txin mem_cons_self
      obtain ⟨inputs', hrun, hkeep, hcover⟩ := ih (inputs.insert txin.prevout.hash (r, t)) hrest
      rw [if_neg hgot, fetchInput_of_source hs, except_ok_bind]
      refine ⟨inputs', hrun, fun hash hh => hkeep hash ?_, fun x hx => ?_⟩
      · by_cases heq : hash = txin.prevout.hash
        · rw [heq, lookup_insert]
          rfl
        · rwa [lookup_insert_ne heq]
      · rcases mem_cons.1 hx with rfl | hx
        · exact hkeep _ (by rw [lookup_insert]; rfl)
        · exact hcover x hx

/-- What was fetched for the inputs `vin`, the first of them input `i` of the transaction, is
good. -/
def Supplies (E : Env) (m : BlockMap) (p : Option Uint256) (rd : CDiskTxPos → Option CTransaction)
    (v : View) (flags : ℕ) (tx : CTransaction) (inputs : MapPrevTx) (i : ℕ) (vin : List CTxIn) :
    Prop :=
  ∀ j txin, vin[j]? = some txin → ∃ r t, inputs.lookup txin.prevout.hash = some (r, t) ∧
    Source rd v txin.prevout r t ∧ InputGood E m p flags tx (i + j) txin r t

theorem Supplies.tail {inputs : MapPrevTx} {i : ℕ} {txin : CTxIn}
    (h : Supplies E m p rd v flags tx inputs i (txin :: vin)) :
    Supplies E m p rd v flags tx inputs (i + 1) vin := by
  intro j txin' hj
  rw [show i + 1 + j = i + (j + 1) by omega]
  exact h (j + 1) txin' hj

theorem checkPrevouts_of_supplies {inputs : MapPrevTx} {i : ℕ}
    (h : Supplies E m p rd v flags tx inputs i vin) : checkPrevouts inputs vin = .ok () := by
  induction vin generalizing i with
  | nil => rfl
  | cons txin vin ih =>
    obtain ⟨r, t, hl, hs, hg⟩ := h 0 txin rfl
    obtain ⟨txout, hout, -, -⟩ := hg.output
    have hn := (List.getElem?_eq_some_iff.1 hout).1
    have hn' := (List.getElem?_eq_some_iff.1 hs.unspent).1
    simp only [checkPrevouts, hl]
    rw [rejectIf_of_not (by omega), except_ok_bind]
    exact ih h.tail

/-- The inputs of a payment that joins the view are fetched. -/
theorem Joins.fetches (h : Joins E m p (w.readTxFromDisk ctx) (overlay q txdb.view) flags tx) :
    ∃ inputs, fetchInputs w ctx txdb q true false tx = .ok inputs ∧
      Fetched w (overlay q txdb.view) inputs ∧
      Supplies E m p (w.readTxFromDisk ctx) (overlay q txdb.view) flags tx inputs 0 tx.vin := by
  have hsources : ∀ txin ∈ tx.vin, ∃ r t,
      Source (w.readTxFromDisk ctx) (overlay q txdb.view) txin.prevout r t := by
    intro txin hin
    obtain ⟨i, hi⟩ := mem_iff_getElem?.1 hin
    obtain ⟨r, t, hs, -⟩ := h.inputs i txin hi
    exact ⟨r, t, hs⟩
  obtain ⟨inputs, hrun, -, hcover⟩ := fetchLoop_of_sources ∅ hsources
  have hempty : Fetched w (overlay q txdb.view) ∅ := fun _ _ _ hl => by
    cases hl
  have hfetched := fetchLoop_sound hempty hrun
  have hsup : Supplies E m p (w.readTxFromDisk ctx) (overlay q txdb.view) flags tx inputs
    0 tx.vin := by
    intro j txin hj
    obtain ⟨r, t, hs, hg⟩ := h.inputs j txin hj
    obtain ⟨⟨r', t'⟩, hl⟩ := Option.isSome_iff_exists.1 (hcover txin (mem_of_getElem? hj))
    -- the record fetched is the one in the view, and there is one transaction at its place
    obtain ⟨hr', ht'⟩ := hfetched _ _ _ hl
    obtain rfl := some.inj (hs.record.symm.trans hr')
    obtain rfl := some.inj ((World.diskTx_of_read hs.read).symm.trans ht')
    exact ⟨r, t, hl, hs, by rw [Nat.zero_add]; exact hg⟩
  refine ⟨inputs, ?_, hfetched, hsup⟩
  rw [fetchInputs, h.notCoinBase]
  simp only [Bool.false_eq_true, ↓reduceIte]
  rw [hrun, except_ok_bind, checkPrevouts_of_supplies hsup, except_ok_bind]

end Fetch

/-! ### Connecting -/

section Connect

variable {w : World} {ctx : Ctx} {txdb : CTxDB} {q : MapTxIndex} {inputs : MapPrevTx} {i : ℕ}
  {vin : List CTxIn} {a : ℤ}

/-- The value of the inputs `vin`. -/
def inputSum (rd : CDiskTxPos → Option CTransaction) (v : View) (vin : List CTxIn) : ℤ :=
  (vin.map fun txin => outValue rd v txin.prevout).sum

theorem inputSum_cons (txin : CTxIn) :
    inputSum rd v (txin :: vin) = outValue rd v txin.prevout + inputSum rd v vin := by
  rw [inputSum, map_cons, sum_cons, inputSum]

section

variable (h : Supplies E m p rd v flags tx inputs i vin)
include h

theorem Supplies.inputSum_nonneg : 0 ≤ inputSum rd v vin := by
  induction vin generalizing i with
  | nil => exact le_rfl
  | cons txin vin ih =>
    obtain ⟨r, t, -, hs, hg⟩ := h 0 txin rfl
    have hhead := hg.value hs
    have htail := ih h.tail
    rw [inputSum_cons]
    omega

/-- The values come in as they are, as long as their sum is in the money range. -/
theorem sumInputs_of_supplies (ha : 0 ≤ a)
    (hle : a + inputSum rd v vin ≤ 5000000000000000000) :
    sumInputs inputs a vin = .ok (a + inputSum rd v vin) := by
  induction vin generalizing i a with
  | nil => simp [sumInputs, inputSum]
  | cons txin vin ih =>
    obtain ⟨r, t, hl, hs, hg⟩ := h 0 txin rfl
    obtain ⟨txout, hout, -, -⟩ := hg.output
    have hhead := hg.value hs
    have htail := h.tail.inputSum_nonneg
    have hval : txout.nValue = outValue rd v txin.prevout := by
      rw [hs.outValue, hout]
      rfl
    have hget : getOutputFor txin inputs = .ok txout := by
      simp only [getOutputFor, hl, hout]
    rw [inputSum_cons] at hle ⊢
    have hadd : add64 a txout.nValue = a + outValue rd v txin.prevout := by
      rw [hval]
      exact wrap64_of_range (by omega) (by omega)
    rw [sumInputs, hget, except_ok_bind, hadd, ih h.tail (by omega) (by omega), add_assoc]

/-- The first loop of `ConnectInputs` gets through. -/
theorem checkInputs_of_supplies (ha : 0 ≤ a)
    (hle : a + inputSum rd v vin ≤ 5000000000000000000) :
    checkInputs E m p tx inputs a vin = .ok (a + inputSum rd v vin) := by
  induction vin generalizing i a with
  | nil => simp [checkInputs, inputSum]
  | cons txin vin ih =>
    obtain ⟨r, t, hl, hs, hg⟩ := h 0 txin rfl
    obtain ⟨txout, hout, hplain, hmoney⟩ := hg.output
    have hhead := hg.value hs
    have htail := h.tail.inputSum_nonneg
    have hn := (List.getElem?_eq_some_iff.1 hs.unspent).1
    have hval : txout.nValue = outValue rd v txin.prevout := by
      rw [hs.outValue, hout]
      rfl
    rw [inputSum_cons] at hle ⊢
    have hadd : add64 a txout.nValue = a + outValue rd v txin.prevout := by
      rw [hval]
      exact wrap64_of_range (by omega) (by omega)
    have hsum : moneyRange (a + outValue rd v txin.prevout) = true :=
      moneyRange_iff.2 ⟨by omega, by omega⟩
    have horder := hg.order
    rw [checkInputs]
    simp only [hl, hout, hg.mature, hadd, hmoney, hsum]
    rw [rejectIf_of_not (by omega), except_ok_bind, rejectIf_of_not (by simp), except_ok_bind,
      rejectIf_of_not (by omega), except_ok_bind, rejectIf_of_not hplain, except_ok_bind,
      rejectIf_of_not (by simp), except_ok_bind, ih h.tail (by omega) (by omega), add_assoc]

end

/-- The outpoints of the inputs `vin` are unspent and their signatures good. -/
def Spendables (E : Env) (flags : ℕ) (tx : CTransaction) (inputs : MapPrevTx) (i : ℕ)
    (vin : List CTxIn) : Prop :=
  ∀ j txin, vin[j]? = some txin → ∃ r t, inputs.lookup txin.prevout.hash = some (r, t) ∧
    r.vSpent[txin.prevout.n]? = some .null ∧ E.verifySignature t tx (i + j) flags = true

/-- The second loop of `ConnectInputs` gets through: the outpoints are different, so that marking
one leaves the others unspent. -/
theorem spendInputs_of_spendables (nBestHeight : ℤ) (pos : CDiskTxPos) (fBlock fMiner : Bool)
    (q : MapTxIndex) (h : Spendables E flags tx inputs i vin)
    (hnd : (vin.map CTxIn.prevout).Nodup) :
    ∃ q', spendInputs E nBestHeight tx pos fBlock fMiner flags i vin inputs q = .ok q' := by
  induction vin generalizing i inputs q with
  | nil => exact ⟨q, rfl⟩
  | cons txin vin ih =>
    obtain ⟨r, t, hl, hnull, hver⟩ := h 0 txin rfl
    rw [map_cons, nodup_cons] at hnd
    have hslot : (r.vSpent.getD txin.prevout.n .null).isNull := by
      rw [getD_eq_getElem?_getD, hnull]
      rfl
    have hsig : checkSignature E nBestHeight t tx i fBlock flags = .ok () := by
      unfold checkSignature
      rw [Nat.add_zero] at hver
      split_ifs
      all_goals rfl
    rw [spendInputs]
    simp only [hl, hsig]
    rw [rejectIf_of_not (not_not.2 hslot), except_ok_bind, except_ok_bind]
    refine ih _ (fun j txin' hj => ?_) hnd.2
    obtain ⟨r', t', hl', hnull', hver'⟩ := h (j + 1) txin' hj
    rw [show i + (j + 1) = i + 1 + j by omega] at hver'
    by_cases hh : txin'.prevout.hash = txin.prevout.hash
    · -- another output of the same transaction
      rw [hh, hl, some.injEq, Prod.mk.injEq] at hl'
      obtain ⟨rfl, rfl⟩ := hl'
      have hn : txin.prevout.n ≠ txin'.prevout.n := by
        intro hn
        refine hnd.1 (mem_map.2 ⟨txin', mem_of_getElem? hj, ?_⟩)
        calc txin'.prevout = ⟨txin'.prevout.hash, txin'.prevout.n⟩ := rfl
          _ = ⟨txin.prevout.hash, txin.prevout.n⟩ := by rw [hh, hn]
      refine ⟨_, _, by rw [hh, lookup_insert], ?_, hver'⟩
      rw [getElem?_set_ne hn]
      exact hnull'
    · exact ⟨r', t', by rw [lookup_insert_ne hh]; exact hl', hnull', hver'⟩

/-- What the first loop of `ConnectInputs` has checked when it gets through. -/
theorem checkInputs_good {n : ℤ} (h : checkInputs E m p tx inputs a vin = .ok n) :
    ∀ txin ∈ vin, ∃ r t, inputs.lookup txin.prevout.hash = some (r, t) ∧
      txin.prevout.n < r.vSpent.length ∧ immature m p r t = false ∧ t.nTime ≤ tx.nTime ∧
      ∃ txout, t.vout[txin.prevout.n]? = some txout ∧
        ¬ (isProtocolV3 E tx.nTime ∧ txout.isEmpty) ∧ moneyRange txout.nValue := by
  induction vin generalizing a with
  | nil => exact fun _ h => absurd h not_mem_nil
  | cons txin vin ih =>
    obtain ⟨r, t, txout, hl, hout, hn, hmature, horder, hplain, ⟨hmoney, -⟩, h⟩ :=
      checkInputs_cons h
    intro txin' hin
    rcases mem_cons.1 hin with rfl | hin
    · exact ⟨r, t, hl, hn, hmature, horder, txout, hout, hplain, hmoney⟩
    · exact ih h txin' hin

/-- The second loop of `ConnectInputs` gets through only if the outpoints are unspent and
different. -/
theorem spendInputs_unspent {nBestHeight : ℤ} {pos : CDiskTxPos} {fBlock fMiner : Bool}
    {q' : MapTxIndex} (hpos : pos ≠ .null)
    (hlen : ∀ txin ∈ vin, ∀ r t, inputs.lookup txin.prevout.hash = some (r, t) →
      txin.prevout.n < r.vSpent.length)
    (h : spendInputs E nBestHeight tx pos fBlock fMiner flags i vin inputs q = .ok q') :
    (vin.map CTxIn.prevout).Nodup ∧ ∀ txin ∈ vin, ∀ r t,
      inputs.lookup txin.prevout.hash = some (r, t) → r.vSpent[txin.prevout.n]? = some .null := by
  induction vin generalizing i inputs q with
  | nil => exact ⟨nodup_nil, fun _ h => absurd h not_mem_nil⟩
  | cons txin vin ih =>
    cases hl : inputs.lookup txin.prevout.hash with
    | none =>
      rw [spendInputs, hl] at h
      cases h
    | some rt =>
      obtain ⟨r, t⟩ := rt
      simp only [spendInputs, hl, except_bind_eq_ok, rejectIf_eq_ok, exists_const, not_not] at h
      obtain ⟨hnull, -, -, h⟩ := h
      have hn := hlen txin mem_cons_self r t hl
      have hslot : r.vSpent[txin.prevout.n]? = some .null := by
        rw [getD_eq_getElem?_getD, getElem?_eq_getElem hn, Option.getD_some,
          CDiskTxPos.isNull_iff] at hnull
        rw [getElem?_eq_getElem hn, hnull]
      -- in what is left, the record of this input has one slot more that is not null
      obtain ⟨hnd, hrest⟩ := ih (fun x hx r' t' hl' => by
        by_cases hh : x.prevout.hash = txin.prevout.hash
        · rw [hh, lookup_insert, some.injEq, Prod.mk.injEq] at hl'
          rw [← hl'.1, length_set]
          exact hlen x (mem_cons_of_mem _ hx) r t (hh ▸ hl)
        · rw [lookup_insert_ne hh] at hl'
          exact hlen x (mem_cons_of_mem _ hx) r' t' hl') h
      have hother : ∀ x ∈ vin, x.prevout.hash = txin.prevout.hash →
          x.prevout.n ≠ txin.prevout.n ∧ r.vSpent[x.prevout.n]? = some .null := by
        intro x hx hh
        have hx' := hrest x hx { r with vSpent := r.vSpent.set txin.prevout.n pos } t
          (by rw [hh, lookup_insert])
        by_cases hn' : x.prevout.n = txin.prevout.n
        · rw [hn', getElem?_set_self hn, some.injEq] at hx'
          exact absurd hx' hpos
        · rw [getElem?_set_ne (Ne.symm hn')] at hx'
          exact ⟨hn', hx'⟩
      refine ⟨?_, fun x hx r' t' hl' => ?_⟩
      · rw [map_cons, nodup_cons]
        refine ⟨fun hmem => ?_, hnd⟩
        obtain ⟨x, hx, heq⟩ := mem_map.1 hmem
        exact (hother x hx (by rw [heq])).1 (by rw [heq])
      · rcases mem_cons.1 hx with rfl | hx
        · rw [hl, some.injEq, Prod.mk.injEq] at hl'
          exact hl'.1 ▸ hslot
        · by_cases hh : x.prevout.hash = txin.prevout.hash
          · rw [hh, hl, some.injEq, Prod.mk.injEq] at hl'
            exact hl'.1 ▸ (hother x hx hh).2
          · exact hrest x hx r' t' (by rw [lookup_insert_ne hh]; exact hl')

/-- **A payment that joins the view is fetched and connected**: its inputs have the value that the
view gives them, and its outpoints are marked. -/
theorem Joins.connects (pos : CDiskTxPos) (fBlock fMiner : Bool)
    (h : Joins E w.mapBlockIndex p (w.readTxFromDisk ctx) (overlay q txdb.view) flags tx)
    (hmark : (fBlock || fMiner) = true) :
    ∃ inputs q', fetchInputs w ctx txdb q true false tx = .ok inputs ∧
      getValueMapIn inputs tx = .ok (valueIn (w.readTxFromDisk ctx) (overlay q txdb.view) tx) ∧
      connectInputs E w tx inputs q pos p fBlock fMiner flags = .ok q' ∧
      overlay q' txdb.view = markAll pos tx.spends (overlay q txdb.view) := by
  obtain ⟨inputs, hfetch, hfetched, hsup⟩ := h.fetches
  have hval : inputSum (w.readTxFromDisk ctx) (overlay q txdb.view) tx.vin =
      valueIn (w.readTxFromDisk ctx) (overlay q txdb.view) tx := by
    rw [valueIn, h.spends, map_map]
    rfl
  have hle := h.valueIn_le
  have hout := h.valueOut_nonneg
  have hfee := h.valueOut_le
  have hspendables : Spendables E flags tx inputs 0 tx.vin := by
    intro j txin hj
    obtain ⟨r, t, hl, hs, hg⟩ := hsup j txin hj
    exact ⟨r, t, hl, hs.unspent, hg.signed⟩
  obtain ⟨q', hspend⟩ :=
    spendInputs_of_spendables w.nBestHeight pos fBlock fMiner q hspendables h.nodup
  have hmarks := (spendInputs_marks hmark (fun hash e t hl => (hfetched hash e t hl).1)
    (fun txin hin => by
      obtain ⟨j, hj⟩ := mem_iff_getElem?.1 hin
      obtain ⟨r, t, -, hs, -⟩ := hsup j txin hj
      rw [slot, hs.record, bind_some, hs.unspent]
      rfl) hspend).1
  have hcheck := checkInputs_of_supplies hsup le_rfl (by rw [hval]; omega)
  have hsum := sumInputs_of_supplies hsup le_rfl (by rw [hval]; omega)
  rw [hval, zero_add] at hcheck hsum
  have hfees : checkFees tx (valueIn (w.readTxFromDisk ctx) (overlay q txdb.view) tx) = .ok () := by
    rw [checkFees, h.notCoinStake]
    simp only [Bool.false_eq_true, ↓reduceIte, h.getValueOut, except_ok_bind]
    generalize valueIn (w.readTxFromDisk ctx) (overlay q txdb.view) tx = x at hle hfee
    have hsub : sub64 x tx.valueOut = x - tx.valueOut := wrap64_of_range (by omega) (by omega)
    have hmoney : moneyRange (x - tx.valueOut) = true := moneyRange_iff.2 ⟨by omega, by omega⟩
    rw [hsub, rejectIf_of_not (by omega), except_ok_bind, rejectIf_of_not (by omega),
      except_ok_bind, rejectIf_of_not (by simp [hmoney])]
  refine ⟨inputs, q', hfetch, ?_, ?_, by rw [hmarks, h.spends]⟩
  · rw [getValueMapIn, h.notCoinBase]
    exact hsum
  · rw [connectInputs, h.notCoinBase]
    simp only [Bool.false_eq_true, ↓reduceIte, hcheck, hspend, hfees, except_ok_bind]

end Connect

/-! ### The loop of `ConnectBlock` -/

/-- On `v` the sources of `v0` are still there, except for the outpoints `S`. -/
def Intact (rd : CDiskTxPos → Option CTransaction) (v0 v : View) (S : List COutPoint) : Prop :=
  ∀ o ∉ S, ∀ r t, Source rd v0 o r t → ∃ r', Source rd v o r' t ∧ r'.pos = r.pos

theorem Intact.refl (rd : CDiskTxPos → Option CTransaction) (v : View) : Intact rd v v [] :=
  fun _ _ r _ h => ⟨r, h, rfl⟩

theorem Intact.connectTx {v0 : View} {S : List COutPoint} (h : Intact rd v0 v S) (pos : CDiskTxPos)
    (hnew : ∀ n r t, ¬ Source rd v0 ⟨E.txHash tx, n⟩ r t) :
    Intact rd v0 (connectTx E pos tx v) (S ++ tx.spends) := by
  intro o ho r t hs
  rw [mem_append, not_or] at ho
  obtain ⟨r', hs', hpos⟩ := h o ho.1 r t hs
  have hne : o.hash ≠ E.txHash tx := by
    intro heq
    refine hnew o.n r t ?_
    rw [← heq]
    exact hs
  refine ⟨{ r' with vSpent := setSlots pos tx.spends o.hash r'.vSpent }, ⟨?_, hs'.read, ?_⟩, hpos⟩
  · simp only [Espers.connectTx, Function.update_of_ne hne, markAll, hs'.record, Option.map_some]
  · simp only
    rw [getElem?_setSlots, if_neg ho.2]
    exact hs'.unspent

theorem no_source_of_overwrites {txdb : CTxDB} {hash : Uint256} (h : overwrites txdb hash = false)
    (n : ℕ) (r : CTxIndex) (t : CTransaction) : ¬ Source rd txdb.view ⟨hash, n⟩ r t := by
  intro hs
  have hrec : txdb.readTxIndex hash = some r := hs.record
  have hnull : r.vSpent.any CDiskTxPos.isNull = true :=
    any_eq_true.2 ⟨.null, mem_of_getElem? hs.unspent, by rfl⟩
  simp only [overwrites, hrec, hnull] at h
  cases h

/-- The verdicts of `ConnectBlock` on a transaction that are not about its inputs: BIP30 and the
limit of signature operations. -/
def limitVerdicts : List Stop :=
  [.dos 100 "ConnectBlock() : tried to overwrite transaction",
    .dos 100 "ConnectBlock() : too many sigops"]

theorem tooManySigops_mem : .dos 100 "ConnectBlock() : too many sigops" ∈ limitVerdicts :=
  mem_cons_of_mem _ mem_cons_self

section Loop

variable {w : World} {ctx : Ctx} {hash : Uint256} {e : CBlockIndex} {b : BlockTally}
  {vtx : List CTransaction}

/-- The values of the payments `vtx`, on the view before the block. -/
def paymentsIn (rd : CDiskTxPos → Option CTransaction) (v : View) (vtx : List CTransaction) : ℤ :=
  (vtx.map (valueIn rd v)).sum

theorem paymentsIn_cons : paymentsIn rd v (tx :: vtx) = valueIn rd v tx + paymentsIn rd v vtx := by
  rw [paymentsIn, map_cons, sum_cons, paymentsIn]

theorem paymentsIn_nonneg (h : ∀ tx ∈ vtx, Joins E m p rd v flags tx) :
    0 ≤ paymentsIn rd v vtx := by
  refine sum_nonneg fun x hx => ?_
  obtain ⟨tx, htx, rfl⟩ := mem_map.1 hx
  have h0 := (h tx htx).valueOut_nonneg
  have h1 := (h tx htx).valueOut_le
  omega

theorem totalOut_le_paymentsIn (h : ∀ tx ∈ vtx, Joins E m p rd v flags tx) :
    totalOut vtx ≤ paymentsIn rd v vtx :=
  sum_le_sum fun tx htx => (h tx htx).valueOut_le

/-- What a pass of the loop over the payment `tx` does to the totals, when it ends well. -/
structure PaymentCounted (E : Env) (w : World) (ctx : Ctx) (e : CBlockIndex) (tx : CTransaction)
    (b b' : BlockTally) : Prop where
  range : b'.InRange
  fresh : overwrites w.txdb (E.txHash tx) = false
  valueIn : b'.nValueIn = b.nValueIn +
    valueIn (w.readTxFromDisk ctx) (overlay b.mapQueuedChanges w.txdb.view) tx
  valueOut : b'.nValueOut = b.nValueOut + tx.valueOut
  fees : b'.nFees = b.nFees +
    (Espers.valueIn (w.readTxFromDisk ctx) (overlay b.mapQueuedChanges w.txdb.view)
    tx - tx.valueOut)
  coinbase : b'.nCoinbaseReward = b.nCoinbaseReward
  view : overlay b'.mapQueuedChanges w.txdb.view =
    connectTx E (e.txPos b.nTxPos) tx (overlay b.mapQueuedChanges w.txdb.view)

/-- **The pass of `ConnectBlock` over a payment that joins the view** counts its values, or ends
with a verdict that is not about its inputs. -/
theorem connectTransaction_of_joins
    (h : Joins E w.mapBlockIndex (some hash) (w.readTxFromDisk ctx)
      (overlay b.mapQueuedChanges w.txdb.view) flags tx) (hr : b.InRange)
    (hin : b.nValueIn + valueIn (w.readTxFromDisk ctx) (overlay b.mapQueuedChanges w.txdb.view) tx <
      9223372036854775808)
    (hout : b.nValueOut + tx.valueOut < 9223372036854775808) :
    (∃ s ∈ limitVerdicts, connectTransaction E w ctx hash e flags b tx = .error s) ∨
    ∃ b', connectTransaction E w ctx hash e flags b tx = .ok b' ∧
      PaymentCounted E w ctx e tx b b' := by
  obtain ⟨inputs, q', hfetch, hget, hconn, hview⟩ :=
    h.connects (e.txPos b.nTxPos) true false rfl
  rw [connectTransaction]
  by_cases hno : overwrites w.txdb (E.txHash tx) = true
  · exact .inl ⟨_, mem_cons_self, by rw [rejectIf, if_pos hno, except_error_bind]⟩
  rw [rejectIf_of_not hno, except_ok_bind]
  simp only [h.notCoinBase, Bool.false_eq_true, ↓reduceIte]
  by_cases hlegacy : b.nSigOps + E.getLegacySigOpCount tx > w.maxBlockSigops
  · exact .inl ⟨_, tooManySigops_mem, by rw [rejectIf, if_pos hlegacy, except_error_bind]⟩
  rw [rejectIf_of_not hlegacy, except_ok_bind, connectSpender]
  simp only [hfetch, except_ok_bind]
  by_cases hp2sh : b.nSigOps + E.getLegacySigOpCount tx + E.getP2SHSigOpCount tx
    inputs > w.maxBlockSigops
  · exact .inl ⟨_, tooManySigops_mem,
      by rw [rejectIf, if_pos hp2sh, except_error_bind, except_error_bind]⟩
  rw [rejectIf_of_not hp2sh, except_ok_bind, hget, except_ok_bind, h.getValueOut, except_ok_bind]
  -- the totals do not overflow
  have hvi := hr.valueIn
  have hvo := hr.valueOut
  have hvf := hr.fees
  have hout0 := h.valueOut_nonneg
  have hfee := h.valueOut_le
  obtain ⟨x, hx⟩ : ∃ x, valueIn (w.readTxFromDisk ctx) (overlay b.mapQueuedChanges w.txdb.view) tx =
    x :=
    ⟨_, rfl⟩
  rw [hx] at hin hfee ⊢
  have haddIn : add64 b.nValueIn x = b.nValueIn + x := wrap64_of_range (by omega) (by omega)
  have haddOut : add64 b.nValueOut tx.valueOut = b.nValueOut + tx.valueOut :=
    wrap64_of_range (by omega) (by omega)
  have hsub : sub64 x tx.valueOut = x - tx.valueOut := wrap64_of_range (by omega) (by omega)
  have haddFee : add64 b.nFees (x - tx.valueOut) = b.nFees + (x - tx.valueOut) :=
    wrap64_of_range (by omega) (by omega)
  rw [BlockTally.addValues]
  simp only [haddIn, haddOut, hsub, haddFee, h.notCoinStake]
  rw [rejectIf_of_not (by omega), except_ok_bind, rejectIf_of_not (by omega), except_ok_bind,
    except_ok_bind]
  simp only [hconn]
  refine .inr ⟨_, rfl, ⟨⟨?_, ?_⟩, ⟨?_, ?_⟩, ?_, ?_⟩,
    by simpa using hno, by rw [hx], rfl, by rw [hx]; rfl, rfl, ?_⟩
  · simp only
    omega
  · exact hin
  · simp only
    omega
  · exact hout
  · simp only [Bool.false_eq_true]
    omega
  · simp only [Bool.false_eq_true]
    omega
  · rw [overlay_insert, hview]
    rfl

theorem immature_congr {r r' : CTxIndex} (h : r'.pos = r.pos) (t : CTransaction) :
    immature m p r' t = immature m p r t := by
  unfold immature
  rw [h]

theorem Joins.of_intact {v0 : View} {S : List COutPoint} (h : Joins E m p rd v0 flags tx)
    (hv : Intact rd v0 v S) (hS : ∀ o ∈ tx.spends, o ∉ S) :
    Joins E m p rd v flags tx ∧ valueIn rd v tx = valueIn rd v0 tx :=
  h.transfer (fun o ho r t hs => hv o (hS o ho) r t hs)
    (fun _ _ _ t _ hpos hm => (immature_congr hpos t).trans hm) fun _ _ hver => hver

/-- **The loop of `ConnectBlock` over payments that join the view of the chain** and spend different
outpoints: it counts all their values, or ends with a verdict that is not about their inputs. -/
theorem connectTransactions_of_joins {S : List COutPoint}
    (hjoin : ∀ tx ∈ vtx, Joins E w.mapBlockIndex (some hash)
    (w.readTxFromDisk ctx) w.txdb.view flags tx) (hnd : (vtx.flatMap CTransaction.spends).Nodup)
    (hS : ∀ o ∈ vtx.flatMap CTransaction.spends, o ∉ S)
    (hv : Intact (w.readTxFromDisk ctx) w.txdb.view (overlay b.mapQueuedChanges w.txdb.view) S)
    (hr : b.InRange)
    (hin : b.nValueIn + paymentsIn (w.readTxFromDisk ctx) w.txdb.view vtx < 9223372036854775808)
    (hout : b.nValueOut + totalOut vtx < 9223372036854775808) :
    (∃ s ∈ limitVerdicts, connectTransactions E w ctx hash e flags b vtx = .error s) ∨
    ∃ b', connectTransactions E w ctx hash e flags b vtx = .ok b' ∧ b'.InRange ∧
      b'.nValueIn = b.nValueIn + paymentsIn (w.readTxFromDisk ctx) w.txdb.view vtx ∧
      b'.nValueOut = b.nValueOut + totalOut vtx ∧
      b'.nFees = b.nFees + (paymentsIn (w.readTxFromDisk ctx) w.txdb.view vtx - totalOut vtx) ∧
      b'.nCoinbaseReward = b.nCoinbaseReward := by
  induction vtx generalizing b S with
  | nil =>
    refine .inr ⟨b, rfl, hr, ?_, ?_, ?_, rfl⟩
    all_goals simp [paymentsIn, totalOut]
  | cons tx vtx ih =>
    have htx : tx ∈ tx :: vtx := mem_cons_self
    have hrest := fun x hx => hjoin x (mem_cons_of_mem _ hx)
    rw [paymentsIn_cons] at hin ⊢
    rw [totalOut_cons] at hout ⊢
    obtain ⟨hnd1, hnd2, hdisj⟩ := nodup_append'.1 hnd
    obtain ⟨hjoins, hval⟩ := (hjoin tx htx).of_intact hv fun o ho =>
      hS o (mem_append_left _ ho)
    have hrest0 := paymentsIn_nonneg hrest
    have hrestOut : 0 ≤ totalOut vtx := sum_nonneg fun x hx => by
      obtain ⟨y, hy, rfl⟩ := mem_map.1 hx
      exact (hrest y hy).valueOut_nonneg
    rw [connectTransactions]
    rcases connectTransaction_of_joins (e := e) hjoins hr (by rw [hval]; omega) (by omega) with
      ⟨s, hs, hstep⟩ | ⟨b1, hstep, hc⟩
    · exact .inl ⟨s, hs, by rw [hstep, except_error_bind]⟩
    have hin1 := hc.valueIn
    have hout1 := hc.valueOut
    have hfees1 := hc.fees
    -- what the transaction spends is not spent by the others
    have hv1 : Intact (w.readTxFromDisk ctx) w.txdb.view (overlay b1.mapQueuedChanges w.txdb.view)
        (S ++ tx.spends) := by
      rw [hc.view]
      exact hv.connectTx _ (no_source_of_overwrites hc.fresh)
    have hS1 : ∀ o ∈ vtx.flatMap CTransaction.spends, o ∉ S ++ tx.spends := by
      intro o ho hmem
      rcases mem_append.1 hmem with hmem | hmem
      · exact hS o (mem_append_right _ ho) hmem
      · exact hdisj hmem ho
    rw [hstep, except_ok_bind]
    rcases ih hrest hnd2 hS1 hv1 hc.range (by omega) (by omega) with
      ⟨s, hs, hrun⟩ | ⟨b', hrun, hr', hin', hout', hfees', hcb'⟩
    · exact .inl ⟨s, hs, hrun⟩
    · exact .inr ⟨b', hrun, hr', by omega, by omega, by omega, hcb'.trans hc.coinbase⟩

/-- The pass over the coinbase. -/
theorem connectTransaction_coinBase_of (E : Env) (w : World) (ctx : Ctx) (hash : Uint256)
    (e : CBlockIndex) (flags pos : ℕ) (hcb : tx.isCoinBase = true)
    (hout : tx.getValueOut = .ok tx.valueOut) (h0 : 0 ≤ tx.valueOut)
    (hle : tx.valueOut ≤ 5000000000000000000) :
    (∃ s ∈ limitVerdicts, connectTransaction E w ctx hash e flags (.init pos) tx = .error s) ∨
    ∃ b', connectTransaction E w ctx hash e flags (.init pos) tx = .ok b' ∧ b'.InRange ∧
      b'.nValueIn = 0 ∧ b'.nValueOut = tx.valueOut ∧ b'.nFees = 0 ∧
      b'.nCoinbaseReward = tx.valueOut ∧
      Intact (w.readTxFromDisk ctx) w.txdb.view (overlay b'.mapQueuedChanges w.txdb.view) [] := by
  rw [connectTransaction]
  by_cases hno : overwrites w.txdb (E.txHash tx) = true
  · exact .inl ⟨_, mem_cons_self, by rw [rejectIf, if_pos hno, except_error_bind]⟩
  have hspends : tx.spends = [] := by
    rw [CTransaction.spends, hcb]
    rfl
  rw [rejectIf_of_not hno, except_ok_bind]
  simp only [hcb]
  by_cases hlegacy : (BlockTally.init pos).nSigOps + E.getLegacySigOpCount tx > w.maxBlockSigops
  · exact .inl ⟨_, tooManySigops_mem, by rw [rejectIf, if_pos hlegacy, except_error_bind]⟩
  have hadd : add64 0 tx.valueOut = tx.valueOut := zero_add64 (by omega) (by omega)
  have hinit : (BlockTally.init pos).nValueOut = 0 := rfl
  rw [rejectIf_of_not hlegacy, except_ok_bind, connectCoinBase, hout, except_ok_bind]
  simp only [hinit, hadd]
  have hzero : (0 : ℤ) < 9223372036854775808 := by norm_num
  refine .inr ⟨_, rfl, ⟨⟨le_rfl, hzero⟩, ⟨h0, ?_⟩, le_rfl, le_rfl⟩, rfl, rfl, rfl, rfl, ?_⟩
  · simp only
    omega
  · have hnew : overwrites w.txdb (E.txHash tx) = false := by simpa using hno
    have hview := (Intact.refl (w.readTxFromDisk ctx) w.txdb.view).connectTx
      (e.txPos (BlockTally.init pos).nTxPos) (no_source_of_overwrites hnew)
    rw [hspends, append_nil, connectTx_of_coinBase hcb] at hview
    rw [overlay_insert]
    simpa [BlockTally.init] using hview

end Loop

end Espers
