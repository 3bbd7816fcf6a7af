import Espers.Chain.Simnet
import Espers.Lib.Spends
import Espers.Wallet.Sync

/-!
# The flags of spent outputs

* `Wallet.book` : the wallet as a book of transactions with flagged outputs.
* `addToWallet_spec` : what `AddToWallet` does to the flags.
-/

namespace Espers

open Exec Spends List Option AList Bool

variable {E : Env} {K : Keystore} {w w' : Wallet} {hash : Uint256} {wtx wtx' : CWalletTx}
  {tx : CTransaction} {o : COutPoint} {vin : List CTxIn}

namespace Wallet

/-- The transaction under a hash. -/
def txOf (w : Wallet) (hash : Uint256) : Option CTransaction :=
  (w.mapWallet.lookup hash).map CWalletTx.toCTransaction

/-- The output is there and flagged as spent. -/
def flag (w : Wallet) (o : COutPoint) : Bool :=
  match w.mapWallet.lookup o.hash with
  | none => false
  | some wtx => decide (o.n < wtx.vout.length) && wtx.vfSpent.getD o.n false

/-- The output is there and the wallet's own. -/
def Own (K : Keystore) (w : Wallet) (o : COutPoint) : Prop :=
  ∃ tx txout, w.txOf o.hash = some tx ∧ tx.vout[o.n]? = some txout ∧ K.isMine txout = true

/-- The transaction under a hash spends the output. -/
def Input (w : Wallet) (hash : Uint256) (o : COutPoint) : Prop :=
  ∃ tx, w.txOf hash = some tx ∧ ∃ txin ∈ tx.vin, txin.prevout = o

/-- The wallet as a book of transactions with flagged outputs. -/
def book (K : Keystore) (w : Wallet) : Book Uint256 COutPoint where
  inputs hash := {o | w.Input hash o}
  own := {o | w.Own K o}
  flagged := {o | w.flag o = true}

/-- The transactions are the same. -/
def Same (w w' : Wallet) : Prop := ∀ hash, w'.txOf hash = w.txOf hash

theorem Same.refl (w : Wallet) : Same w w := fun _ => rfl

theorem Same.trans {w1 w2 w3 : Wallet} (h : Same w1 w2) (h' : Same w2 w3) : Same w1 w3 :=
  fun hash => (h' hash).trans (h hash)

theorem Same.own (h : Same w w') : w'.Own K o ↔ w.Own K o := by
  unfold Own
  rw [h o.hash]

theorem Same.input (h : Same w w') : w'.Input hash o ↔ w.Input hash o := by
  unfold Input
  rw [h hash]

theorem txOf_of_lookup (h : w.mapWallet.lookup hash = some wtx) :
    w.txOf hash = some wtx.toCTransaction := by
  rw [txOf, h]
  rfl

theorem flag_of_lookup (h : w.mapWallet.lookup o.hash = some wtx) :
    w.flag o = (decide (o.n < wtx.vout.length) && wtx.vfSpent.getD o.n false) := by
  rw [flag, h]

theorem txOf_put_self : (w.put hash wtx).txOf hash = some wtx.toCTransaction :=
  txOf_of_lookup (lookup_insert _)

theorem txOf_put_ne {hash' : Uint256} (h : hash' ≠ hash) : (w.put hash wtx).txOf hash' =
    w.txOf hash' := by
  rw [txOf, put, lookup_insert_ne h, txOf]

theorem flag_put_self (h : o.hash = hash) : (w.put hash wtx).flag o =
    (decide (o.n < wtx.vout.length) && wtx.vfSpent.getD o.n false) := by
  subst h
  exact flag_of_lookup (lookup_insert _)

theorem flag_put_ne (h : o.hash ≠ hash) : (w.put hash wtx).flag o = w.flag o := by
  rw [flag, put, lookup_insert_ne h, flag]

theorem put_put : (w.put hash wtx).put hash wtx' = w.put hash wtx' := by
  unfold put
  rw [insert_insert]

theorem same_put (h : w.mapWallet.lookup hash = some wtx)
    (htx : wtx'.toCTransaction = wtx.toCTransaction) : Same w (w.put hash wtx') := by
  intro hash'
  by_cases heq : hash' = hash
  · subst heq
    rw [txOf_put_self, txOf_of_lookup h, htx]
  · exact txOf_put_ne heq

end Wallet

/-! ### One flag -/

theorem CWalletTx.getD_resized (wtx : CWalletTx) {i : ℕ} (hi : i < wtx.vout.length) :
    wtx.resized.getD i false = wtx.vfSpent.getD i false := by
  unfold CWalletTx.resized
  rw [getD_eq_getElem?_getD, getD_eq_getElem?_getD, getElem?_append]
  split_ifs with h
  · rw [getElem?_take_of_lt hi]
  · rw [length_take, not_lt] at h
    have hlen : wtx.vfSpent.length ≤ i := by omega
    rw [getElem?_eq_none hlen, getElem?_replicate]
    split_ifs <;> rfl

theorem CWalletTx.length_resized (wtx : CWalletTx) : wtx.resized.length = wtx.vout.length := by
  unfold CWalletTx.resized
  rw [length_append, length_take, length_replicate]
  omega

theorem CWalletTx.getD_resized_set (wtx : CWalletTx) {n i : ℕ} (f : Bool)
    (hi : i < wtx.vout.length) : (wtx.resized.set n f).getD i false = if i = n then f else
    wtx.vfSpent.getD i false := by
  by_cases h : i = n
  · subst h
    rw [if_pos rfl, getD_eq_getElem?_getD, getElem?_set_self (by rwa [wtx.length_resized])]
    rfl
  · rw [if_neg h, getD_eq_getElem?_getD, getElem?_set_ne (Ne.symm h),
      ← getD_eq_getElem?_getD, wtx.getD_resized hi]

/-- One flag is set or cleared, and no other changes. -/
theorem Wallet.flag_put_set (h : w.mapWallet.lookup hash = some wtx) (n : ℕ) (f : Bool) :
    w.Same (w.put hash { wtx with vfSpent := wtx.resized.set n f }) ∧
      ∀ o, (w.put hash { wtx with vfSpent := wtx.resized.set n f }).flag o =
        if o = ⟨hash, n⟩ then decide (n < wtx.vout.length) && f else w.flag o := by
  refine ⟨same_put h rfl, fun o => ?_⟩
  by_cases heq : o.hash = hash
  · rw [flag_put_self heq, flag_of_lookup (heq ▸ h)]
    by_cases hlt : o.n < wtx.vout.length
    · rw [wtx.getD_resized_set f hlt]
      by_cases hn : o.n = n
      · rw [if_pos hn, if_pos (by cases o; simp_all), ← hn]
      · have hne : o ≠ ⟨hash, n⟩ := by
          rintro rfl
          exact hn rfl
        rw [if_neg hn, if_neg hne]
    · simp only [hlt]
      split_ifs with ho
      · rw [ho] at hlt
        simp [hlt]
      · rfl
  · have hne : o ≠ ⟨hash, n⟩ := by
      rintro rfl
      exact heq rfl
    rw [flag_put_ne heq, if_neg hne]

/-! ### The loops over inputs and outputs -/

namespace Wallet

theorem Own.elim (h : w.Own K o) (hw : w.mapWallet.lookup o.hash = some wtx) :
    ∃ txout, wtx.vout[o.n]? = some txout ∧ K.isMine txout = true := by
  obtain ⟨tx, txout, htx, hout, hmine⟩ := h
  obtain rfl := some.inj ((txOf_of_lookup hw).symm.trans htx)
  exact ⟨txout, hout, hmine⟩

/-- Empty transactions may be added, and flags are only set. -/
structure Grows (w w' : Wallet) : Prop where
  txOf : ∀ hash tx, w.txOf hash = some tx → w'.txOf hash = some tx
  new : ∀ hash tx, w'.txOf hash = some tx → w.txOf hash = some tx ∨ tx.vin = [] ∧ tx.vout = []
  flag : ∀ o, w.flag o = true → w'.flag o = true

theorem Grows.refl (w : Wallet) : Grows w w := ⟨fun _ _ => id, fun _ _ => .inl, fun _ => id⟩

theorem Grows.trans {w1 w2 w3 : Wallet} (h : Grows w1 w2) (h' : Grows w2 w3) : Grows w1 w3 := by
  refine ⟨fun hash _ hw => h'.txOf hash _ (h.txOf hash _ hw), fun hash tx hw => ?_,
    fun o ho => h'.flag o (h.flag o ho)⟩
  rcases h'.new hash tx hw with hold | hempty
  · exact h.new hash tx hold
  · exact .inr hempty

theorem Same.grows (h : Same w w') (hflag : ∀ o, w.flag o = true → w'.flag o = true) : Grows w w' :=
  ⟨fun hash _ hw => (h hash).trans hw, fun hash _ hw => .inl ((h hash).symm.trans hw), hflag⟩

theorem Grows.input (h : Grows w w') (hin : w'.Input hash o) : w.Input hash o := by
  obtain ⟨tx, htx, txin, hmem, heq⟩ := hin
  rcases h.new hash tx htx with hold | ⟨hvin, -⟩
  · exact ⟨tx, hold, txin, hmem, heq⟩
  · rw [hvin] at hmem
    cases hmem

theorem Grows.own (h : Grows w w') (ho : w'.Own K o) : w.Own K o := by
  obtain ⟨tx, txout, htx, hout, hmine⟩ := ho
  rcases h.new o.hash tx htx with hold | ⟨-, hvout⟩
  · exact ⟨tx, txout, hold, hout, hmine⟩
  · rw [hvout] at hout
    cases hout

theorem Grows.kept {live live' : Set Uint256} (h : Grows w w') (hkept : Kept (w.book K) live)
    (hlive : ∀ hash ∈ live', ∀ tx, w.txOf hash = some tx → hash ∈ live) :
    Kept (w'.book K) live' := by
  refine hkept.mono ?_ (fun _ _ => h.input) (fun _ => h.own) (h.flag)
  rintro hash hmem ⟨o, ho⟩
  obtain ⟨tx, htx, -⟩ := h.input ho
  exact hlive hash hmem tx htx

end Wallet

open Wallet

theorem CWalletTx.spends_of_vout {wtx : CWalletTx} {n : ℕ} {txout : CTxOut}
    (h : wtx.vout[n]? = some txout) :
    n < wtx.vout.length ∧ wtx.isSpent n = .ok (wtx.vfSpent.getD n false) ∧
      wtx.markSpent n = .ok { wtx with vfSpent := wtx.resized.set n true } := by
  have hlt := (List.getElem?_eq_some_iff.mp h).1
  exact ⟨hlt, if_neg (by omega), if_neg (by omega)⟩

/-- One turn of the first loop of `WalletUpdateSpent`. -/
theorem markInputs_cons (K : Keystore) (txin : CTxIn) (vin : List CTxIn) (w : Wallet) :
    ∃ w', markInputs K (txin :: vin) w = markInputs K vin w' ∧ Same w w' ∧
      (∀ o, w.flag o = true → w'.flag o = true) ∧
      (w.Own K txin.prevout → w'.flag txin.prevout = true) := by
  rw [markInputs, get_bind_apply]
  cases hw : w.mapWallet.lookup txin.prevout.hash with
  | none =>
    refine ⟨w, rfl, .refl w, fun _ => id, fun hown => ?_⟩
    obtain ⟨_, _, htx, -⟩ := hown
    rw [txOf, hw] at htx
    cases htx
  | some wtx =>
    cases hout : wtx.vout[txin.prevout.n]? with
    | none =>
      refine ⟨w, by simp only [hout], .refl w, fun _ => id, fun hown => ?_⟩
      obtain ⟨txout, hout', -⟩ := hown.elim hw
      rw [hout] at hout'
      cases hout'
    | some txout =>
      obtain ⟨hlt, hspent, hmark⟩ := CWalletTx.spends_of_vout hout
      simp only [hout, hspent]
      rw [bind_of_ok (lift_ok _ w)]
      by_cases hc : (!wtx.vfSpent.getD txin.prevout.n false && K.isMine txout) = true
      · rw [if_pos hc, hmark, bind_of_ok (lift_ok _ w)]
        obtain ⟨hsame, hflag⟩ := flag_put_set hw txin.prevout.n true
        refine ⟨_, rfl, hsame, fun o ho => ?_, fun _ => ?_⟩
        · rw [hflag]
          split_ifs with heq
          · simp [hlt]
          · exact ho
        · rw [hflag, if_pos rfl]
          simp [hlt]
      · rw [if_neg hc]
        refine ⟨w, rfl, .refl w, fun _ => id, fun hown => ?_⟩
        obtain ⟨txout', hout', hmine⟩ := hown.elim hw
        obtain rfl := some.inj (hout.symm.trans hout')
        rw [flag_of_lookup hw]
        simp only [hmine, Bool.and_true, Bool.not_eq_true, Bool.not_eq_false'] at hc
        rw [hc, decide_eq_true hlt]
        rfl

theorem markInputs_spec (K : Keystore) (vin : List CTxIn) (w : Wallet) :
    ∃ w', markInputs K vin w = .ok () w' ∧ Same w w' ∧ (∀ o, w.flag o = true → w'.flag o = true) ∧
      ∀ txin ∈ vin, w.Own K txin.prevout → w'.flag txin.prevout = true := by
  induction vin generalizing w with
  | nil => exact ⟨w, rfl, .refl w, fun _ => id, by simp⟩
  | cons txin vin ih =>
    obtain ⟨w1, heq, hsame, hflag, hmark⟩ := markInputs_cons K txin vin w
    obtain ⟨w', hrun, hsame', hflag', hmark'⟩ := ih w1
    refine ⟨w', heq.trans hrun, hsame.trans hsame', fun o ho => hflag' o (hflag o ho), ?_⟩
    rintro txin' (_ | ⟨_, hmem⟩) hown
    · exact hflag' _ (hmark hown)
    · exact hmark' txin' hmem (hsame.own.mpr hown)

/-- One turn of the second loop of `WalletUpdateSpent`. -/
theorem unmarkOutputs_cons (K : Keystore) (i : ℕ) (txout : CTxOut) (vout : List CTxOut)
    (htx : w.txOf hash = some tx) (hlt : i < tx.vout.length) :
    ∃ w', unmarkOutputs K hash i (txout :: vout) w = unmarkOutputs K hash (i + 1) vout w' ∧
      Same w w' ∧ ∀ o, w.flag o = true → w'.flag o = true ∨ o.hash = hash := by
  rw [unmarkOutputs]
  by_cases hmine : K.isMine txout = true
  · rw [if_pos hmine, get_bind_apply]
    obtain ⟨wtx, hw, rfl⟩ : ∃ wtx, w.mapWallet.lookup hash = some wtx ∧ wtx.toCTransaction = tx :=
      map_eq_some_iff.mp htx
    have hunmark : wtx.markUnspent i = .ok { wtx with vfSpent := wtx.resized.set i false } :=
      if_neg (by omega)
    obtain ⟨hsame, hflag⟩ := flag_put_set hw i false
    simp only [hw, hunmark]
    refine ⟨_, rfl, hsame, fun o ho => ?_⟩
    rw [hflag]
    split_ifs with heq
    · exact .inr (by rw [heq])
    · exact .inl ho
  · rw [if_neg hmine]
    exact ⟨w, rfl, .refl w, fun _ ho => .inl ho⟩

theorem unmarkOutputs_spec (K : Keystore) (vout : List CTxOut) (i : ℕ) (w : Wallet)
    (htx : w.txOf hash = some tx) (hlen : i + vout.length = tx.vout.length) :
    ∃ w', unmarkOutputs K hash i vout w = .ok () w' ∧ Same w w' ∧
      ∀ o, w.flag o = true → w'.flag o = true ∨ o.hash = hash := by
  induction vout generalizing i w with
  | nil => exact ⟨w, rfl, .refl w, fun _ ho => .inl ho⟩
  | cons txout vout ih =>
    rw [length_cons] at hlen
    obtain ⟨w1, heq, hsame, hflag⟩ := unmarkOutputs_cons K i txout vout htx (by omega)
    obtain ⟨w', hrun, hsame', hflag'⟩ := ih (i + 1) w1 ((hsame hash).trans htx) (by omega)
    refine ⟨w', heq.trans hrun, hsame.trans hsame', fun o ho => ?_⟩
    rcases hflag o ho with ho | heq
    · exact hflag' o ho
    · exact .inr heq

/-- `WalletUpdateSpent` flags the own outputs among the inputs; for a transaction in a block that
has outputs, it clears flags of the transaction itself. -/
theorem walletUpdateSpent_spec (E : Env) (K : Keystore) (w : Wallet) (tx : CTransaction)
    (fBlock : Bool) (hentry : fBlock = true → tx.vout ≠ [] → w.txOf (E.txHash tx) = some tx) :
    ∃ w', walletUpdateSpent E K tx fBlock w = .ok () w' ∧ Same w w' ∧
      (∀ o, w.flag o = true → w'.flag o = true ∨
        fBlock = true ∧ tx.vout ≠ [] ∧ o.hash = E.txHash tx) ∧
      ∀ txin ∈ tx.vin, w.Own K txin.prevout → w'.flag txin.prevout = true ∨
        fBlock = true ∧ tx.vout ≠ [] ∧ txin.prevout.hash = E.txHash tx := by
  obtain ⟨w1, hrun, hsame, hflag, hmark⟩ := markInputs_spec K tx.vin w
  rw [walletUpdateSpent, bind_of_ok hrun]
  cases fBlock with
  | false =>
    exact ⟨w1, rfl, hsame, fun o ho => .inl (hflag o ho), fun _ hm ho => .inl (hmark _ hm ho)⟩
  | true =>
    by_cases hvout : tx.vout = []
    · rw [hvout]
      exact ⟨w1, rfl, hsame, fun o ho => .inl (hflag o ho), fun _ hm ho => .inl (hmark _ hm ho)⟩
    · obtain ⟨w', hrun', hsame', hflag'⟩ := unmarkOutputs_spec K tx.vout 0 w1
        ((hsame _).trans (hentry rfl hvout)) (Nat.zero_add _)
      refine ⟨w', hrun', hsame.trans hsame', fun o ho => ?_, fun txin hm ho => ?_⟩
      · exact (hflag' o (hflag o ho)).imp_right fun heq => ⟨rfl, hvout, heq⟩
      · exact (hflag' _ (hmark txin hm ho)).imp_right fun heq => ⟨rfl, hvout, heq⟩

/-! ### `AddToWallet` -/

theorem CWalletTx.getD_updateSpent (vfNewSpent vfSpent : List Bool) (i : ℕ)
    (h : vfSpent.getD i false = true) : (updateSpent vfNewSpent vfSpent).getD i false = true := by
  induction vfNewSpent, vfSpent using updateSpent.induct generalizing i with
  | case1 vfSpent => exact h
  | case2 fNew vfNewSpent => exact h
  | case3 fNew vfNewSpent f vfSpent ih =>
    cases i with
    | zero =>
      rw [getD_cons_zero] at h
      simp [updateSpent, h]
    | succ i => exact ih i h

namespace Wallet

/-- The transaction that the wallet has under the hash of this one, or else this one. -/
def entry (E : Env) (w : Wallet) (wtxIn : CWalletTx) : CTransaction :=
  (w.txOf (E.txHash wtxIn.toCTransaction)).getD wtxIn.toCTransaction

/-- The wallet after the insertion of a transaction, before anything is flagged. -/
def inserted (E : Env) (w : Wallet) (wtxIn : CWalletTx) : Wallet :=
  match w.mapWallet.lookup (E.txHash wtxIn.toCTransaction) with
  | none => w.put (E.txHash wtxIn.toCTransaction) wtxIn
  | some wtx => w.put (E.txHash wtxIn.toCTransaction) (mergeTx wtx wtxIn).1

/-- A transaction is under its own hash, unless it is an empty one. -/
def Keyed (E : Env) (w : Wallet) : Prop :=
  ∀ hash tx, w.txOf hash = some tx → E.txHash tx = hash ∨ tx.vin = [] ∧ tx.vout = []

theorem Grows.keyed (h : Grows w w') (hkeyed : Keyed E w) : Keyed E w' := by
  intro hash tx htx
  exact (h.new hash tx htx).elim (hkeyed hash tx) .inr

theorem Same.keyed (h : Same w w') (hkeyed : Keyed E w) : Keyed E w' :=
  fun hash tx htx => hkeyed hash tx ((h hash).symm.trans htx)

variable {wtxIn : CWalletTx}

theorem txOf_inserted_self :
    (w.inserted E wtxIn).txOf (E.txHash wtxIn.toCTransaction) = some (w.entry E wtxIn) := by
  unfold inserted entry
  cases h : w.mapWallet.lookup (E.txHash wtxIn.toCTransaction) with
  | none =>
    have hnone : w.txOf (E.txHash wtxIn.toCTransaction) = none := by rw [txOf, h]; rfl
    rw [hnone]
    exact txOf_put_self
  | some wtx =>
    rw [txOf_of_lookup h]
    exact txOf_put_self

theorem txOf_inserted_ne (h : hash ≠ E.txHash wtxIn.toCTransaction) :
    (w.inserted E wtxIn).txOf hash = w.txOf hash := by
  unfold inserted
  split <;> exact txOf_put_ne h

theorem flag_inserted (ho : w.flag o = true) : (w.inserted E wtxIn).flag o = true := by
  unfold inserted
  by_cases heq : o.hash = E.txHash wtxIn.toCTransaction
  · cases h : w.mapWallet.lookup (E.txHash wtxIn.toCTransaction) with
    | none =>
      rw [flag, heq, h] at ho
      cases ho
    | some wtx =>
      rw [flag_of_lookup (heq ▸ h), and_eq_true] at ho
      obtain ⟨hlt, hflag⟩ := ho
      simp only [flag_put_self heq]
      rw [and_eq_true]
      exact ⟨hlt, CWalletTx.getD_updateSpent _ _ _ hflag⟩
  · split <;> rwa [flag_put_ne heq]

theorem flag_inserted_new (hnew : w.txOf (E.txHash wtxIn.toCTransaction) = none)
    (heq : o.hash = E.txHash wtxIn.toCTransaction) (hlt : o.n < wtxIn.vout.length)
    (hset : wtxIn.vfSpent.getD o.n false = true) : (w.inserted E wtxIn).flag o = true := by
  unfold inserted
  rw [txOf, map_eq_none_iff] at hnew
  simp only [hnew]
  rw [flag_put_self heq, hset, decide_eq_true hlt]
  rfl

theorem Keyed.entry (hkeyed : Keyed E w) : E.txHash (w.entry E wtxIn) =
    E.txHash wtxIn.toCTransaction ∨ (w.entry E wtxIn).vin = [] ∧ (w.entry E wtxIn).vout = [] := by
  unfold Wallet.entry
  cases h : w.txOf (E.txHash wtxIn.toCTransaction) with
  | none => exact .inl rfl
  | some tx => exact hkeyed _ tx h

theorem Keyed.inserted (hkeyed : Keyed E w) : Keyed E (w.inserted E wtxIn) := by
  intro hash tx htx
  by_cases heq : hash = E.txHash wtxIn.toCTransaction
  · subst heq
    obtain rfl := some.inj (txOf_inserted_self.symm.trans htx)
    exact hkeyed.entry
  · rw [txOf_inserted_ne heq] at htx
    exact hkeyed hash tx htx

end Wallet

theorem addToWallet_eq (E : Env) (K : Keystore) (writes : Bool) (w : Wallet) (wtxIn : CWalletTx) :
    ∃ fChanged, addToWallet E K writes wtxIn w = (if (fChanged && !writes) = true then pure false
      else do
        walletUpdateSpent E K (w.entry E wtxIn) (decide (wtxIn.hashBlock ≠ 0))
        pure true : EStateM Stop Wallet Bool) (w.inserted E wtxIn) := by
  unfold addToWallet
  rw [get_bind_apply]
  cases h : w.mapWallet.lookup (E.txHash wtxIn.toCTransaction) with
  | none =>
    have hentry : w.entry E wtxIn = wtxIn.toCTransaction := by
      rw [Wallet.entry, txOf, h]
      rfl
    refine ⟨true, ?_⟩
    rw [hentry]
    simp only [inserted, h]
    rfl
  | some wtx =>
    have hentry : w.entry E wtxIn = wtx.toCTransaction := by
      rw [Wallet.entry, txOf_of_lookup h]
      rfl
    refine ⟨(mergeTx wtx wtxIn).2, ?_⟩
    rw [hentry]
    simp only [inserted, h]
    rfl

/-- **What `AddToWallet` does.**  The transaction is inserted; if it is written to disk, its inputs
are flagged, and a transaction in a block loses flags of its own outputs. -/
theorem addToWallet_spec (K : Keystore) (writes : Bool) (wtxIn : CWalletTx) (hkeyed : Keyed E w) :
    ∃ b w', addToWallet E K writes wtxIn w = .ok b w' ∧ Same (w.inserted E wtxIn) w' ∧
      (∀ o, (w.inserted E wtxIn).flag o = true → w'.flag o = true ∨
        wtxIn.hashBlock ≠ 0 ∧ o.hash = E.txHash wtxIn.toCTransaction) ∧
      (writes = true → ∀ txin ∈ (w.entry E wtxIn).vin, (w.inserted E wtxIn).Own K txin.prevout →
        w'.flag txin.prevout = true ∨
          wtxIn.hashBlock ≠ 0 ∧ txin.prevout.hash = E.txHash wtxIn.toCTransaction) := by
  obtain ⟨fChanged, heq⟩ := addToWallet_eq E K writes w wtxIn
  rw [heq]
  by_cases hfail : (fChanged && !writes) = true
  · refine ⟨false, w.inserted E wtxIn, ?_, .refl _, fun _ ho => .inl ho, fun hw => ?_⟩
    · rw [if_pos hfail]
      rfl
    · simp [hw] at hfail
  · rw [if_neg hfail]
    -- the transaction is there under its own hash, unless it has no outputs
    have hthere : (w.entry E wtxIn).vout ≠ [] →
        E.txHash (w.entry E wtxIn) = E.txHash wtxIn.toCTransaction :=
      fun hne => hkeyed.entry.resolve_right fun hempty => hne hempty.2
    obtain ⟨w', hrun, hsame, hflag, hmark⟩ := walletUpdateSpent_spec E K (w.inserted E wtxIn)
      (w.entry E wtxIn) (decide (wtxIn.hashBlock ≠ 0))
      fun _ hne => by rw [hthere hne, txOf_inserted_self]
    refine ⟨true, w', ?_, hsame, fun o ho => (hflag o ho).imp_right ?_, fun _ txin hm ho =>
      (hmark txin hm ho).imp_right ?_⟩
    · exact (bind_of_ok hrun).trans rfl
    · rintro ⟨hblock, hne, heq⟩
      exact ⟨of_decide_eq_true hblock, heq.trans (hthere hne)⟩
    · rintro ⟨hblock, hne, heq⟩
      exact ⟨of_decide_eq_true hblock, heq.trans (hthere hne)⟩

/-! ### Commits and notifications -/

namespace Wallet

/-- `mapWallet[hash]` adds an empty transaction at most. -/
theorem grows_subscript (w : Wallet) (now : ℕ) (hash : Uint256) :
    Grows w (w.put hash (w.subscript now hash)) := by
  unfold subscript
  cases h : w.mapWallet.lookup hash with
  | some wtx =>
    refine (same_put h rfl).grows fun o ho => ?_
    by_cases heq : o.hash = hash
    · rw [flag_of_lookup (heq ▸ h)] at ho
      exact (flag_put_self heq).trans ho
    · rwa [flag_put_ne heq]
  | none =>
    have hnone : w.txOf hash = none := by
      rw [txOf, h]
      rfl
    refine ⟨fun hash' tx htx => ?_, fun hash' tx htx => ?_, fun o ho => ?_⟩
    · have hne : hash' ≠ hash := by
        rintro rfl
        rw [hnone] at htx
        cases htx
      rwa [txOf_put_ne hne]
    · by_cases heq : hash' = hash
      · subst heq
        rw [txOf_put_self] at htx
        obtain rfl := some.inj htx
        exact .inr ⟨rfl, rfl⟩
      · rw [txOf_put_ne heq] at htx
        exact .inl htx
    · have hne : o.hash ≠ hash := by
        intro heq
        rw [flag, heq, h] at ho
        cases ho
      rwa [flag_put_ne hne]

end Wallet

theorem Wallet.grows_set (h : w.mapWallet.lookup hash = some wtx) {n : ℕ}
    (hlt : n < wtx.vout.length) :
    Grows w (w.put hash { wtx with vfSpent := wtx.resized.set n true }) := by
  obtain ⟨hsame, hflag⟩ := flag_put_set h n true
  refine hsame.grows fun o ho => ?_
  rw [hflag]
  split_ifs
  · simp [hlt]
  · exact ho

/-- Marking old coins as spent clears nothing. -/
theorem markCoins_grows (now : ℕ) (vin : List CTxIn) (w : Wallet) :
    Grows w (finalState (markCoins now vin w)) := by
  induction vin generalizing w with
  | nil => exact .refl w
  | cons txin vin ih =>
    have hcoin := grows_subscript w now txin.prevout.hash
    rw [markCoins, get_bind_apply]
    generalize w.subscript now txin.prevout.hash = coin at hcoin ⊢
    by_cases hout : txin.prevout.n ≥ coin.vout.length
    · have hmark : coin.markSpent txin.prevout.n =
        .error (.exception "CWalletTx::MarkSpent() : nOut out of range") := if_pos hout
      simp only [hmark]
      exact hcoin
    · have hmark : coin.markSpent txin.prevout.n =
        .ok { coin with vfSpent := coin.resized.set txin.prevout.n true } := if_neg hout
      have hput : (w.put txin.prevout.hash coin).mapWallet.lookup txin.prevout.hash = some coin :=
        lookup_insert _
      simp only [hmark]
      have hset := grows_set hput (not_le.mp hout)
      rw [put_put] at hset
      exact (hcoin.trans hset).trans (ih _)

/-- The loop of `DisableTransaction` clears only flags of the inputs. -/
theorem unmarkInputs_spec (K : Keystore) (vin : List CTxIn) (w : Wallet) :
    ∃ w', unmarkInputs K vin w = .ok () w' ∧ Same w w' ∧
      ∀ o, w.flag o = true → w'.flag o = true ∨ ∃ txin ∈ vin, txin.prevout = o := by
  induction vin generalizing w with
  | nil => exact ⟨w, rfl, .refl w, fun _ ho => .inl ho⟩
  | cons txin vin ih =>
    obtain ⟨w1, heq, hsame, hflag⟩ : ∃ w1, unmarkInputs K (txin :: vin) w = unmarkInputs K vin w1 ∧
        Same w w1 ∧ ∀ o, w.flag o = true → w1.flag o = true ∨ txin.prevout = o := by
      rw [unmarkInputs, get_bind_apply]
      cases hw : w.mapWallet.lookup txin.prevout.hash with
      | none => exact ⟨w, rfl, .refl w, fun _ ho => .inl ho⟩
      | some prev =>
        cases hout : prev.vout[txin.prevout.n]? with
        | none => exact ⟨w, by simp only [hout], .refl w, fun _ ho => .inl ho⟩
        | some txout =>
          have hlt : txin.prevout.n < prev.vout.length := (List.getElem?_eq_some_iff.mp hout).1
          have hunmark : prev.markUnspent txin.prevout.n =
            .ok { prev with vfSpent := prev.resized.set txin.prevout.n false } := if_neg (by omega)
          by_cases hmine : K.isMine txout = true
          · obtain ⟨hsame, hflag⟩ := flag_put_set hw txin.prevout.n false
            refine ⟨_, by simp only [hout, if_pos hmine, hunmark]; rfl, hsame, fun o ho => ?_⟩
            rw [hflag]
            split_ifs with heq
            · exact .inr heq.symm
            · exact .inl ho
          · exact ⟨w, by simp only [hout, if_neg hmine], .refl w, fun _ ho => .inl ho⟩
    obtain ⟨w', hrun, hsame', hflag'⟩ := ih w1
    refine ⟨w', heq.trans hrun, hsame.trans hsame', fun o ho => ?_⟩
    rcases hflag o ho with ho | heq
    · exact (hflag' o ho).imp_right fun ⟨txin', hm, ho'⟩ => ⟨txin', .tail _ hm, ho'⟩
    · exact .inr ⟨txin, .head _, heq⟩

end Espers
