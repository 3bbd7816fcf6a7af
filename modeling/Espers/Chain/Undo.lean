import Espers.Chain.Connect

/-!
# Disconnecting undoes connecting

`disconnectTransactions_undo` says that the loop of `DisconnectBlock`, run on a database in which
the block has been connected, does not fail and gives back the view from before.

* `disconnectBlock_undo` : **`DisconnectBlock` succeeds on a block that has been connected**, and
  the view is again the one before.
-/

namespace Espers

open Exec List

variable {E : Env} {e : CBlockIndex} {pos : ℕ} {vtx : List CTransaction} {v : View} {w : World}
  {tx : CTransaction}

/-- No transaction of the list is in the view, and no two of them have the same hash. -/
structure Fresh (E : Env) (vtx : List CTransaction) (v : View) : Prop where
  absent : ∀ tx ∈ vtx, v (E.txHash tx) = none
  nodup : (vtx.map E.txHash).Nodup

theorem Fresh.tail (h : Fresh E (tx :: vtx) v) (p : CDiskTxPos) :
    Fresh E vtx (connectTx E p tx v) := by
  have hnd := h.nodup
  rw [map_cons, nodup_cons] at hnd
  refine ⟨fun x hx => connectTx_eq_none.2 ⟨h.absent x (mem_cons_of_mem _ hx), ?_⟩, hnd.2⟩
  intro heq
  exact hnd.1 (heq ▸ mem_map_of_mem hx)

/-! ### The source follows the views -/

theorem relinquish_ok (vin : List CTxIn)
    (h : ∀ txin ∈ vin, (slot w.txdb.view txin.prevout).isSome) :
    ∃ txdb : CTxDB, relinquish vin w = .ok () { w with txdb := txdb } ∧
      txdb.view = markAll .null (vin.map CTxIn.prevout) w.txdb.view := by
  induction vin generalizing w with
  | nil => exact ⟨w.txdb, rfl, by simp⟩
  | cons txin vin ih =>
    obtain ⟨i, hi⟩ : ∃ i, w.txdb.view txin.prevout.hash = some i := by
      have hsome := h txin mem_cons_self
      cases hi : w.txdb.view txin.prevout.hash with
      | none => simp [slot, hi] at hsome
      | some i => exact ⟨i, rfl⟩
    have hlt : ¬ txin.prevout.n ≥ i.vSpent.length := by
      have hsome := h txin mem_cons_self
      simpa [slot, hi] using hsome
    let txdb1 : CTxDB := w.txdb.updateTxIndex txin.prevout.hash
      { i with vSpent := i.vSpent.set txin.prevout.n .null }
    have hv1 : txdb1.view = markAll .null [txin.prevout] w.txdb.view := by
      rw [view_updateTxIndex, ← markAll_singleton hi]
    have hs1 : ∀ x ∈ vin, (slot txdb1.view x.prevout).isSome := by
      intro x hx
      have := h x (mem_cons_of_mem _ hx)
      rw [hv1, slot_markAll]
      split_ifs <;> simpa using this
    obtain ⟨txdb, hrun, hview⟩ := ih (w := { w with txdb := txdb1 }) hs1
    refine ⟨txdb, ?_, by rw [hview, hv1, map_cons, ← markAll_cons]⟩
    rw [relinquish, bind_apply]
    have hread : w.txdb.readTxIndex txin.prevout.hash = some i := hi
    simp only [get_apply, hread, hlt]
    exact hrun

theorem disconnectInputs_ok (h : ∀ o ∈ tx.spends, (slot w.txdb.view o).isSome) :
    ∃ txdb : CTxDB, disconnectInputs E tx w = .ok () { w with txdb := txdb } ∧
      txdb.view = disconnectTx E tx w.txdb.view := by
  have hsp : tx.spends = (if tx.isCoinBase then [] else tx.vin).map CTxIn.prevout := by
    unfold CTransaction.spends
    split_ifs <;> rfl
  obtain ⟨txdb, hrun, hview⟩ := relinquish_ok (w := w) (if tx.isCoinBase then [] else tx.vin)
    fun txin hin => h _ (hsp ▸ mem_map_of_mem hin)
  refine ⟨txdb.eraseTxIndex (E.txHash tx), ?_, ?_⟩
  · rw [disconnectInputs, bind_of_ok hrun]
    rfl
  · rw [view_eraseTxIndex, hview, ← hsp]
    rfl

theorem disconnectTransactions_append (a b : List CTransaction) (w : World) :
    disconnectTransactions E (a ++ b) w =
      (do disconnectTransactions E a; disconnectTransactions E b : Node Unit) w := by
  induction a generalizing w with
  | nil => rfl
  | cons tx a ih =>
    simp only [cons_append, disconnectTransactions, bind_assoc]
    rw [bind_apply, bind_apply]
    cases disconnectInputs E tx w with
    | ok u w1 => exact ih w1
    | error s w1 => rfl

/-- The loop of `DisconnectBlock` does not fail where the block has been connected, and gives back
the view from before. -/
theorem disconnectTransactions_undo (hs : AllSpendable E e pos vtx v) (hf : Fresh E vtx v)
    (hw : w.txdb.view = connectTxs E e pos vtx v) :
    ∃ txdb : CTxDB, disconnectTransactions E vtx.reverse w = .ok () { w with txdb := txdb } ∧
      txdb.view = v := by
  induction vtx generalizing pos v with
  | nil => exact ⟨w.txdb, rfl, hw⟩
  | cons tx vtx ih =>
    have habs := hf.absent tx mem_cons_self
    obtain ⟨txdb1, hrun1, hview1⟩ := ih hs.2 (hf.tail (e.txPos pos)) hw
    have hslots : ∀ o ∈ tx.spends, (slot txdb1.view o).isSome := by
      intro o ho
      rw [hview1, slot_connectTx_of_ne (hs.1.hash_ne habs ho), if_pos ho, hs.1 o ho]
      rfl
    obtain ⟨txdb, hrun, hview⟩ :=
      disconnectInputs_ok (E := E) (w := { w with txdb := txdb1 }) hslots
    refine ⟨txdb, ?_, ?_⟩
    · rw [reverse_cons, disconnectTransactions_append, bind_of_ok hrun1,
        disconnectTransactions, bind_of_ok hrun]
      rfl
    · rw [hview]
      rw [hview1]
      exact disconnectTx_connectTx hs.1 habs

theorem read_writeHashNext (txdb : CTxDB) (d : CBlockIndex) (hashNext : Uint256) :
    (writeHashNext E (some d) hashNext txdb).read
        (.blockindex ((CDiskBlockIndex.ofIndex d).getBlockHash E)) =
      some { CDiskBlockIndex.ofIndex d with hashNext := hashNext } :=
  Store.Db.read_write_self _ _ _

theorem disconnectBlock_undo {block : CBlock} {p : Uint256} {e' : CBlockIndex}
    {prev : Option CBlockIndex} (hs : AllSpendable E e pos block.vtx v) (hf : Fresh E block.vtx v)
    (hw : w.txdb.view = connectTxs E e pos block.vtx v) (he : w.mapBlockIndex.lookup p = some e')
    (hprev : prev = e'.pprev.bind fun q => w.mapBlockIndex.lookup q)
    (hsome : e'.pprev.isSome → prev.isSome) :
    ∃ txdb : CTxDB, disconnectBlock E block p w = .ok () { w with
        txdb := writeHashNext E prev 0 txdb
        walletLog := w.walletLog ++ syncBlock block false } ∧ txdb.view = v := by
  obtain ⟨txdb, hrun, hview⟩ := disconnectTransactions_undo hs hf hw
  refine ⟨txdb, ?_, hview⟩
  have hd : deref (some p) { w with txdb := txdb } = .ok e' { w with txdb := txdb } :=
    deref_eq_ok.2 ⟨he, rfl⟩
  have hp : derefPrev e' { w with txdb := txdb } = .ok prev { w with txdb := txdb } :=
    derefPrev_eq_ok.2 ⟨hprev, hsome, rfl⟩
  rw [disconnectBlock, bind_of_ok hrun, bind_of_ok hd, bind_of_ok hp]
  rfl

end Espers
