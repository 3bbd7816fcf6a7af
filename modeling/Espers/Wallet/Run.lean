import Espers.Wallet.Spent

/-!
# Runs of the wallet

A run is a sequence of commits and notifications.  A coinstake whose block is disconnected is
disabled until it is seen again.

* `WalletRun` : the states that are reached, with the transactions that are disabled.
* `Undisturbed` : no flag is cleared that a transaction of the wallet needs.
* `Remembers.step` : **an undisturbed step forgets no spend**.
-/

namespace Espers

open Exec Spends Wallet Option Bool List

variable {E : Env} {K : Keystore} {w w' : Wallet} {disabled disabled' : Set Uint256}
  {writes : Bool} {wtxIn : CWalletTx} {tx : CTransaction} {o : COutPoint}

/-! ### Runs -/

/-- What the wallet is asked to do; `writes` says whether the disk works. -/
inductive WalletStep where
  | commit (wtxNew : CWalletTx) (accepted writes : Bool) (now : ℕ)
  | sync (tx : CTransaction) (pblock : Option CBlock) (fConnect fFixSpentCoins writes : Bool)
    (now : ℕ)

namespace WalletStep

/-- A step of the wallet. -/
def exec (E : Env) (K : Keystore) : WalletStep → EStateM Stop Wallet Unit
  | commit wtxNew accepted writes now => do
    let _ ← commitTransaction E K writes now accepted wtxNew
    pure ()
  | sync tx pblock fConnect fFixSpentCoins writes now =>
    syncTransaction E K writes now tx pblock fConnect fFixSpentCoins

/-- The transactions that are disabled after a step. -/
def disable (E : Env) (K : Keystore) (w : Wallet) (before : Set Uint256) : WalletStep → Set Uint256
  | commit wtxNew _ _ _ => before \ {E.txHash wtxNew.toCTransaction}
  | sync tx _ true _ _ _ => before \ {E.txHash tx}
  | sync tx _ false _ _ _ =>
    if tx.isCoinStake = true ∧ w.isFromMe K tx = .ok true then
      insert (E.txHash tx) before else before

end WalletStep

/-- The states of the wallet that are reached by steps that satisfy a condition, with the
transactions that are disabled.  A runtime error ends a step, not the run. -/
inductive WalletRun (E : Env) (K : Keystore)
    (condition : Wallet → Set Uint256 → WalletStep → Prop) : Wallet → Set Uint256 → Prop
  | start : WalletRun E K condition ⟨∅⟩ ∅
  | step {w : Wallet} {disabled : Set Uint256} {a : WalletStep}
    (hrun : WalletRun E K condition w disabled)
      (hstep : condition w disabled a) :
      WalletRun E K condition (finalState (a.exec E K w)) (a.disable E K w disabled)

/-- The transaction spends an output of the entry, and it is an own output. -/
def SpendsOwn (K : Keystore) (entry tx : CTransaction) (o : COutPoint) : Prop :=
  (∃ txin ∈ tx.vin, txin.prevout = o) ∧ ∃ txout, entry.vout[o.n]? = some txout ∧
    K.isMine txout = true

/-- `AddToWallet` clears no flag that is needed, and sets those that are.  An entry comes without
flags when it is new, and loses them when it is seen in a block. -/
structure Undisturbed (E : Env) (K : Keystore) (w : Wallet) (disabled : Set Uint256) (writes : Bool)
    (wtxIn : CWalletTx) : Prop where
  /-- A transaction of the wallet spends no own output of an entry in a block, nor of a new entry
  that does not have it flagged. -/
  others : ∀ hash ∉ disabled, ∀ tx, w.txOf hash = some tx →
    ∀ o, o.hash = E.txHash wtxIn.toCTransaction → SpendsOwn K (w.entry E wtxIn) tx o →
      wtxIn.hashBlock = 0 ∧ ((w.txOf o.hash).isSome ∨ wtxIn.vfSpent.getD o.n false = true)
  /-- The entry does not spend its own outputs. -/
  self : ∀ o, o.hash = E.txHash wtxIn.toCTransaction →
    SpendsOwn K (w.entry E wtxIn) (w.entry E wtxIn) o →
      wtxIn.hashBlock = 0 ∧ ((w.txOf o.hash).isSome ∨ writes = true)
  /-- When the disk fails, the inputs are flagged already. -/
  written : writes = true ∨
    ∀ txin ∈ (w.entry E wtxIn).vin, w.Own K txin.prevout → w.flag txin.prevout = true

/-- The transaction is in the wallet or involves it. -/
def Wallet.Involved (E : Env) (K : Keystore) (w : Wallet) (tx : CTransaction) : Prop :=
  (w.txOf (E.txHash tx)).isSome ∨ K.isMineTx tx = true ∨ w.isFromMe K tx = .ok true

/-- The transaction that `AddToWalletIfInvolvingMe` hands to `AddToWallet`. -/
def CWalletTx.seen (E : Env) (tx : CTransaction) (pblock : Option CBlock) : CWalletTx :=
  match pblock with
  | none => .ofTx tx
  | some pblock => (CWalletTx.ofTx tx).setMerkleBranch E pblock

/-- A step clears no flag that is needed, and sets those that are. -/
def WalletStep.Undisturbed (E : Env) (K : Keystore) (w : Wallet) (disabled : Set Uint256) :
    WalletStep → Prop
  | commit wtxNew _ writes _ => Espers.Undisturbed E K w disabled writes wtxNew
  | sync tx pblock true _ writes _ =>
    w.Involved E K tx → Espers.Undisturbed E K w disabled writes (.seen E tx pblock)
  | sync tx _ false _ _ _ => tx.isCoinStake = true → w.isFromMe K tx = .ok true →
    -- no other transaction of the wallet spends what is refunded
    ∀ hash ∉ disabled, hash ≠ E.txHash tx → ∀ txin ∈ tx.vin, w.Own K txin.prevout →
      ¬ w.Input hash txin.prevout

/-! ### What is remembered -/

/-- No spend is forgotten. -/
structure Remembers (E : Env) (K : Keystore) (w : Wallet) (disabled : Set Uint256) : Prop where
  keyed : Keyed E w
  kept : Kept (w.book K) disabledᶜ

theorem Remembers.grows (h : Remembers E K w disabled) (hgrows : Grows w w')
    (hlive : ∀ hash ∉ disabled', ∀ tx, w.txOf hash = some tx → hash ∉ disabled) :
    Remembers E K w' disabled' :=
  ⟨hgrows.keyed h.keyed, hgrows.kept h.kept hlive⟩

theorem Wallet.own_inserted (ho : (w.inserted E wtxIn).Own K o) :
    o.hash = E.txHash wtxIn.toCTransaction ∧ (∃ txout, (w.entry E wtxIn).vout[o.n]? = some txout ∧
      K.isMine txout = true) ∨ o.hash ≠ E.txHash wtxIn.toCTransaction ∧ w.Own K o := by
  obtain ⟨tx, txout, htx, hout, hmine⟩ := ho
  by_cases heq : o.hash = E.txHash wtxIn.toCTransaction
  · rw [heq, txOf_inserted_self] at htx
    obtain rfl := some.inj htx
    exact .inl ⟨heq, txout, hout, hmine⟩
  · rw [txOf_inserted_ne heq] at htx
    exact .inr ⟨heq, tx, txout, htx, hout, hmine⟩

theorem Wallet.own_of_entry (heq : o.hash = E.txHash wtxIn.toCTransaction)
    (hout : ∃ txout, (w.entry E wtxIn).vout[o.n]? = some txout ∧ K.isMine txout = true)
    (hsome : (w.txOf o.hash).isSome) : w.Own K o := by
  obtain ⟨txout, hout, hmine⟩ := hout
  obtain ⟨tx, htx⟩ := isSome_iff_exists.mp hsome
  have hentry : w.entry E wtxIn = tx := by
    rw [entry, ← heq, htx]
    rfl
  exact ⟨tx, txout, htx, hentry ▸ hout, hmine⟩

/-- **`AddToWallet` forgets no spend** when it is undisturbed. -/
theorem Remembers.add (h : Remembers E K w disabled)
    (hfree : Undisturbed E K w disabled writes wtxIn) :
    ∃ b w', addToWallet E K writes wtxIn w = .ok b w' ∧
      w'.txOf (E.txHash wtxIn.toCTransaction) = some (w.entry E wtxIn) ∧
      Remembers E K w' (disabled \ {E.txHash wtxIn.toCTransaction}) := by
  obtain ⟨b, w', hrun, hsame, hflag, hmark⟩ := addToWallet_spec K writes wtxIn h.keyed
  refine ⟨b, w', hrun, (hsame _).trans txOf_inserted_self, hsame.keyed h.keyed.inserted, ?_⟩
  -- flags from before are kept, except those of an entry in a block
  have hold : ∀ o, (o.hash = E.txHash wtxIn.toCTransaction → wtxIn.hashBlock = 0) →
      (w.inserted E wtxIn).flag o = true → w'.flag o = true :=
    fun o hblock ho => (hflag o ho).resolve_right fun hc => hc.1 (hblock hc.2)
  refine h.kept.enter (t := E.txHash wtxIn.toCTransaction) ?_ ?_ ?_ ?_
  · intro hash hmem hne hin
    exact hmem ⟨hin, hne⟩
  · rintro hash hne o ⟨tx, htx, hin⟩
    rw [hsame hash, txOf_inserted_ne hne] at htx
    exact ⟨tx, htx, hin⟩
  · -- the inputs of the entry
    rintro o ⟨tx, htx, txin, hm, rfl⟩ hown
    rw [hsame, txOf_inserted_self] at htx
    obtain rfl := some.inj htx
    replace hown := hsame.own.mp hown
    rcases own_inserted hown with ⟨heq, hout⟩ | ⟨hne, hown'⟩
    · obtain ⟨hblock, hsome | hwrites⟩ := hfree.self _ heq ⟨⟨txin, hm, rfl⟩, hout⟩
      · rcases hfree.written with hwrites | hset
        · exact (hmark hwrites txin hm hown).resolve_right fun hc => hc.1 hblock
        · exact hold _ (fun _ => hblock)
            (flag_inserted (hset txin hm (own_of_entry heq hout hsome)))
      · exact (hmark hwrites txin hm hown).resolve_right fun hc => hc.1 hblock
    · rcases hfree.written with hwrites | hset
      · exact (hmark hwrites txin hm hown).resolve_right fun hc => hne hc.2
      · exact hold _ (fun heq => absurd heq hne) (flag_inserted (hset txin hm hown'))
  · -- the inputs of the others
    rintro hash hmem hne o ⟨tx, htx, hin⟩ hown
    rw [hsame hash, txOf_inserted_ne hne] at htx
    rcases own_inserted (hsame.own.mp hown) with ⟨heq, hout⟩ | ⟨hne', hown'⟩
    · obtain ⟨hblock, hfound⟩ :=
        hfree.others hash (fun hin' => hmem ⟨hin', hne⟩) tx htx o heq ⟨hin, hout⟩
      by_cases hsome : (w.txOf o.hash).isSome
      · exact .inr ⟨own_of_entry heq hout hsome, fun ho => hold o (fun _ => hblock)
          (flag_inserted ho)⟩
      · have hnone : w.txOf (E.txHash wtxIn.toCTransaction) = none := by
          rw [← heq]
          exact not_isSome_iff_eq_none.mp hsome
        have hentry : w.entry E wtxIn = wtxIn.toCTransaction := by
          rw [entry, hnone]
          rfl
        obtain ⟨txout, hout, -⟩ := hout
        rw [hentry] at hout
        have hlt : o.n < wtxIn.vout.length := (List.getElem?_eq_some_iff.mp hout).1
        exact .inl (hold o (fun _ => hblock)
          (flag_inserted_new hnone heq hlt (hfound.resolve_left hsome)))
    · exact .inr ⟨hown', fun ho => hold o (fun heq => absurd heq hne') (flag_inserted ho)⟩

/-! ### One step -/

theorem Remembers.again (h : Remembers E K w disabled) (writes : Bool)
    (htx : (w.txOf (E.txHash tx)).isSome) (hlive : E.txHash tx ∉ disabled) :
    Undisturbed E K w disabled writes (.seen E tx none) where
  others _ _ _ _ o heq _ := ⟨rfl, .inl (heq ▸ htx)⟩
  self _ heq _ := ⟨rfl, .inl (heq ▸ htx)⟩
  written := by
    refine .inr fun txin hm hown => h.kept _ hlive _ ?_ hown
    obtain ⟨tx', htx'⟩ := isSome_iff_exists.mp htx
    have hentry : w.entry E (.seen E tx none) = tx' := by
      change (w.txOf (E.txHash tx)).getD tx = tx'
      rw [htx']
      rfl
    exact ⟨tx', htx', txin, hentry ▸ hm, rfl⟩

theorem CWalletTx.seen_toCTransaction (E : Env) (tx : CTransaction) (pblock : Option CBlock) :
    (CWalletTx.seen E tx pblock).toCTransaction = tx := by
  cases pblock with
  | none => rfl
  | some pblock =>
    unfold seen setMerkleBranch
    dsimp only
    split <;> rfl

section

variable (h : Remembers E K w disabled)
include h

/-- `AddToWalletIfInvolvingMe` forgets no spend. -/
theorem Remembers.involving (pblock : Option CBlock)
    (hfree : w.Involved E K tx → Undisturbed E K w disabled writes (.seen E tx pblock)) :
    Remembers E K (finalState (addToWalletIfInvolvingMe E K writes tx pblock w))
      (disabled \ {E.txHash tx}) := by
  have hadd : w.Involved E K tx → Remembers E K
      (finalState (addToWallet E K writes (.seen E tx pblock) w)) (disabled \ {E.txHash tx}) := by
    intro hinv
    obtain ⟨b, w', hrun, -, hrem⟩ := h.add (hfree hinv)
    rw [CWalletTx.seen_toCTransaction] at hrem
    rwa [hrun]
  unfold addToWalletIfInvolvingMe
  rw [get_bind_apply]
  by_cases hc : ((w.mapWallet.lookup (E.txHash tx)).isSome || K.isMineTx tx) = true
  · simp only [if_pos hc]
    refine hadd ?_
    rw [or_eq_true] at hc
    rcases hc with hsome | hmine
    · exact .inl (by rwa [txOf, isSome_map])
    · exact .inr (.inl hmine)
  · simp only [if_neg hc]
    -- the transaction is not in the wallet, so that it has no inputs to be remembered
    have hlive : ∀ hash ∉ disabled \ {E.txHash tx}, ∀ tx', w.txOf hash = some tx' →
        hash ∉ disabled := by
      rintro hash hmem tx' htx' hin
      refine hmem ⟨hin, ?_⟩
      rintro rfl
      rw [txOf, map_eq_some_iff] at htx'
      obtain ⟨wtx, hw, -⟩ := htx'
      rw [hw] at hc
      exact hc rfl
    cases hme : w.isFromMe K tx with
    | error e => exact h.grows (.refl w) hlive
    | ok fInvolved =>
      cases fInvolved with
      | true => exact hadd (.inr (.inr hme))
      | false =>
        obtain ⟨w', hrun, hsame, hflag, -⟩ := walletUpdateSpent_spec E K w tx false
          fun hc => absurd hc false_ne_true
        have hgrows : Grows w w' :=
          hsame.grows fun o ho => (hflag o ho).resolve_right fun hc => false_ne_true hc.1
        have hrem := h.grows hgrows hlive
        rwa [← finalState_ok () w', ← hrun, ← finalState_bind_pure _ false] at hrem

/-- A notification of a transaction that is connected forgets no spend. -/
theorem Remembers.connect (writes : Bool) (pblock : Option CBlock) (fFixSpentCoins : Bool) (now : ℕ)
    (hfree : w.Involved E K tx → Undisturbed E K w disabled writes (.seen E tx pblock)) :
    Remembers E K (finalState (syncTransaction E K writes now tx pblock true fFixSpentCoins w))
      (disabled \ {E.txHash tx}) := by
  have hrem := h.involving pblock hfree
  unfold syncTransaction
  rw [if_neg (by decide)]
  cases hrun : addToWalletIfInvolvingMe E K writes tx pblock w with
  | error e w' =>
    rw [hrun] at hrem
    rwa [bind_of_error hrun]
  | ok b w' =>
    rw [hrun] at hrem
    rw [bind_of_ok hrun]
    cases fFixSpentCoins with
    | false => exact hrem
    | true => exact hrem.grows (markCoins_grows now tx.vin w') fun _ hmem _ _ => hmem

/-- A commit forgets no spend. -/
theorem Remembers.commit (now : ℕ) (accepted : Bool)
    {wtxNew : CWalletTx} (hfree : Undisturbed E K w disabled writes wtxNew) :
    Remembers E K (finalState (commitTransaction E K writes now accepted wtxNew w))
      (disabled \ {E.txHash wtxNew.toCTransaction}) := by
  obtain ⟨b, w1, hadd, hentry, hrem⟩ := h.add hfree
  unfold commitTransaction
  rw [bind_of_ok hadd]
  have hcoins := markCoins_grows now wtxNew.vin w1
  replace hrem := hrem.grows hcoins fun _ hmem _ _ => hmem
  cases hmark : markCoins now wtxNew.vin w1 with
  | error e w2 =>
    rw [hmark] at hrem
    rwa [bind_of_error hmark]
  | ok u w2 =>
    rw [hmark, finalState_ok] at hrem hcoins
    rw [bind_of_ok hmark]
    cases accepted with
    | false => exact hrem
    | true =>
      -- the notification comes when the transaction is there and flags nothing new
      have hthere : (w2.txOf (E.txHash wtxNew.toCTransaction)).isSome := by
        rw [hcoins.txOf _ _ hentry]
        rfl
      have hsync := hrem.connect writes none false now fun _ =>
        hrem.again writes hthere fun hmem => hmem.2 rfl
      rw [Set.sdiff_sdiff, Set.union_self] at hsync
      rw [if_pos rfl]
      rwa [finalState_bind_pure]

/-- A notification of a transaction that is disconnected forgets no spend but those of a coinstake
that it disables. -/
theorem Remembers.disconnect (pblock : Option CBlock)
    (fFixSpentCoins : Bool) (now : ℕ)
    (hfree : tx.isCoinStake = true → w.isFromMe K tx = .ok true → ∀ hash ∉ disabled,
      hash ≠ E.txHash tx → ∀ txin ∈ tx.vin, w.Own K txin.prevout → ¬ w.Input hash txin.prevout) :
    Remembers E K (finalState (syncTransaction E K writes now tx pblock false fFixSpentCoins w))
      (if tx.isCoinStake = true ∧ w.isFromMe K tx = .ok true then insert (E.txHash tx) disabled
      else disabled) := by
  unfold syncTransaction
  rw [if_pos (by decide)]
  by_cases hstake : tx.isCoinStake = true
  · rw [if_pos hstake, get_bind_apply]
    cases hme : w.isFromMe K tx with
    | error e =>
      rw [if_neg fun hc => nomatch hc.2]
      exact h
    | ok fFromMe =>
      cases fFromMe with
      | false =>
        rw [if_neg fun hc => nomatch hc.2]
        exact h
      | true =>
        rw [if_pos ⟨hstake, rfl⟩]
        obtain ⟨w', hrun, hsame, hflag⟩ := unmarkInputs_spec K tx.vin w
        have hdisable : disableTransaction K tx w = .ok () w' := by
          unfold disableTransaction
          rw [get_bind_apply]
          simp only [if_pos hstake, hme]
          exact hrun
        have hfinal : finalState ((lift (.ok true) >>= fun fFromMe : Bool =>
            (if fFromMe = true then disableTransaction K tx else pure () :
              EStateM Stop Wallet Unit)) w) = w' := by
          rw [bind_of_ok (lift_ok true w), if_pos rfl, hdisable]
          rfl
        refine (congrArg (Remembers E K · _) hfinal).mpr ⟨hsame.keyed h.keyed, ?_⟩
        refine h.kept.leave (t := E.txHash tx) {o | ∃ txin ∈ tx.vin, txin.prevout = o} ?_
          (fun _ _ => hsame.input.mp) (fun _ => hsame.own.mp)
          (fun o ho hout => (hflag o ho).resolve_right hout) ?_
        · intro hash hmem
          exact ⟨fun hin => hmem (.inr hin), fun heq => hmem (.inl heq)⟩
        · rintro hash hmem hne o hin hown ⟨txin, hm, rfl⟩
          exact hfree hstake hme hash (fun hin' => hmem (.inr hin')) hne txin hm
            (hsame.own.mp hown) (hsame.input.mp hin)
  · rw [if_neg hstake, if_neg fun hc => hstake hc.1]
    exact h

/-- **An undisturbed step forgets no spend.** -/
theorem Remembers.step {a : WalletStep} (hfree : a.Undisturbed E K w disabled) :
    Remembers E K (finalState (a.exec E K w)) (a.disable E K w disabled) := by
  cases a with
  | commit wtxNew accepted writes now =>
    have hrem := h.commit now accepted hfree
    rwa [← finalState_bind_pure _ ()] at hrem
  | sync tx pblock fConnect fFixSpentCoins writes now =>
    cases fConnect with
    | true => exact h.connect writes pblock fFixSpentCoins now hfree
    | false => exact h.disconnect pblock fFixSpentCoins now hfree

end

theorem WalletRun.remembers
    (hrun : WalletRun E K (fun w disabled a => a.Undisturbed E K w disabled) w disabled) :
    Remembers E K w disabled := by
  induction hrun with
  | start => exact ⟨fun _ _ htx => (nomatch htx), fun _ _ o ⟨_, htx, _⟩ => (nomatch htx)⟩
  | step hrun hstep ih => exact ih.step hstep

theorem Wallet.isSpent_of_flag {A : CWalletTx} (hA : w.mapWallet.lookup o.hash = some A)
    (ho : w.flag o = true) : A.isSpent o.n = .ok true := by
  rw [flag_of_lookup hA, and_eq_true, decide_eq_true_eq] at ho
  obtain ⟨hlt, hset⟩ := ho
  rw [CWalletTx.isSpent, if_neg (not_le.mpr hlt), hset]

/-- A coin on offer is an own output that is not spent. -/
theorem Wallet.of_mem_availableCoins {skips : CWalletTx → Bool} {selected : Uint256 → ℕ → Bool}
    (ho : o ∈ w.availableCoins K skips selected) :
    w.Own K o ∧ ∃ A, w.mapWallet.lookup o.hash = some A ∧ A.isSpent o.n = .ok false := by
  unfold availableCoins at ho
  rw [mem_flatMap] at ho
  obtain ⟨⟨hash, A⟩, hmem, ho⟩ := ho
  split_ifs at ho with hskip
  · cases ho
  · rw [List.mem_map] at ho
    obtain ⟨i, hi, rfl⟩ := ho
    rw [mem_filter, and_eq_true, and_eq_true, decide_eq_true_eq] at hi
    obtain ⟨-, ⟨hspent, hany⟩, -⟩ := hi
    have hA : w.mapWallet.lookup hash = some A := AList.mem_lookup_iff.mpr hmem
    cases hout : A.vout[i]? with
    | none =>
      rw [hout] at hany
      cases hany
    | some txout =>
      rw [hout, any_some, and_eq_true] at hany
      exact ⟨⟨A.toCTransaction, txout, txOf_of_lookup hA, hout, hany.1⟩, A, hA, hspent⟩

/-- **In an undisturbed run no spend is forgotten**: an own output that a transaction of the wallet
spends is spent, and `AvailableCoins` does not offer it. -/
theorem spends_remembered
    (hrun : WalletRun E K (fun w disabled a => a.Undisturbed E K w disabled) w disabled)
    (hashB : Uint256) (hlive : hashB ∉ disabled) (B : CWalletTx)
    (hB : w.mapWallet.lookup hashB = some B) (txin : CTxIn) (hin : txin ∈ B.vin) :
    (∀ A txout, w.mapWallet.lookup txin.prevout.hash = some A →
      A.vout[txin.prevout.n]? = some txout → K.isMine txout = true →
        A.isSpent txin.prevout.n = .ok true) ∧
    ∀ skips selected, txin.prevout ∉ w.availableCoins K skips selected := by
  have hkept : w.Own K txin.prevout → w.flag txin.prevout = true :=
    hrun.remembers.kept hashB hlive _ ⟨B.toCTransaction, txOf_of_lookup hB, txin, hin, rfl⟩
  constructor
  · intro A txout hA hout hmine
    exact isSpent_of_flag hA (hkept ⟨A.toCTransaction, txout, txOf_of_lookup hA, hout, hmine⟩)
  · intro skips selected ho
    obtain ⟨hown, A, hA, hspent⟩ := of_mem_availableCoins ho
    rw [isSpent_of_flag hA (hkept hown)] at hspent
    cases hspent

/-! ### Two transactions of a wallet -/

namespace Simnet

/-- A wallet with one script. -/
def ownKeys : Keystore where
  isMine txout := txout.scriptPubKey = [0x51]
  nMinimumInputValue := 0

/-- A payment to the wallet. -/
def ownReceipt : CTransaction where
  nVersion := 1
  nTime := 1
  vin := [⟨⟨7, 0⟩, [], uintMax⟩]
  vout := [⟨50, [0x51]⟩]
  nLockTime := 0

/-- A payment by the wallet of what it received. -/
def ownPayment : CTransaction where
  nVersion := 1
  nTime := 2
  vin := [⟨⟨1, 0⟩, [], uintMax⟩]
  vout := [⟨40, [0x52]⟩]
  nLockTime := 0

/-- A block with the receipt alone. -/
def receiptBlock : CBlock where
  nVersion := 7
  hashPrevBlock := 0
  hashMerkleRoot := 1
  nTime := 3
  nBits := 0x207fffff
  nNonce := 0
  vtx := [ownReceipt]
  vchBlockSig := []

/-- The receipt is seen in the memory pool. -/
def seeReceipt : WalletStep := .sync ownReceipt none true false true 0

/-- The payment is committed. -/
def commitPayment : WalletStep := .commit (.ofTx ownPayment) true true 0

/-- The receipt is seen in a block. -/
def confirmReceipt : WalletStep := .sync ownReceipt (some receiptBlock) true false true 0

/-- The wallet after the receipt. -/
def received : Wallet := finalState (seeReceipt.exec env ownKeys ⟨∅⟩)

/-- The wallet after the payment. -/
def paid : Wallet := finalState (commitPayment.exec env ownKeys received)

/-- The wallet after the confirmation. -/
def confirmed : Wallet := finalState (confirmReceipt.exec env ownKeys paid)

/-- The receipt in its block. -/
def confirmedReceipt : CWalletTx :=
  { ownReceipt with
    hashBlock := receiptBlock.getHash env
    vMerkleBranch := []
    nIndex := 0
    fFromMe := false
    vfSpent := [false] }

theorem lookup_confirmed : confirmed.mapWallet.lookup 1 = some confirmedReceipt ∧
    confirmed.mapWallet.lookup 2 = some (.ofTx ownPayment) := by
  decide +kernel

theorem ownPayment_vout (n : ℕ) :
    ¬ ∃ txout, ownPayment.vout[n]? = some txout ∧ ownKeys.isMine txout = true := by
  rintro ⟨txout, hout, hmine⟩
  cases n with
  | zero =>
    cases hout
    revert hmine
    decide
  | succ n => cases hout

theorem seeReceipt_undisturbed : seeReceipt.Undisturbed env ownKeys ⟨∅⟩ ∅ := by
  refine fun _ => ⟨fun _ _ _ htx => (nomatch htx), ?_, .inl rfl⟩
  rintro o heq ⟨⟨txin, hm, rfl⟩, -⟩
  obtain rfl := mem_singleton.mp (show txin ∈ [_] from hm)
  decide

theorem commitPayment_undisturbed (disabled : Set Uint256) :
    commitPayment.Undisturbed env ownKeys received disabled := by
  have hentry : received.entry env (.ofTx ownPayment) = ownPayment := by decide +kernel
  refine ⟨fun _ _ _ _ o _ hspends => ?_, fun o _ hspends => ?_, .inl rfl⟩
  · rw [hentry] at hspends
    exact absurd hspends.2 (ownPayment_vout o.n)
  · rw [hentry] at hspends
    exact absurd hspends.2 (ownPayment_vout o.n)

end Simnet

open Simnet

/-- A receipt and a payment: the coin is spent and no more on offer. -/
theorem spends_remembered_paid :
    (∀ A txout, paid.mapWallet.lookup 1 = some A → A.vout[0]? = some txout →
      ownKeys.isMine txout = true → A.isSpent 0 = .ok true) ∧
    ∀ skips selected, ⟨1, 0⟩ ∉ paid.availableCoins ownKeys skips selected := by
  refine spends_remembered (.step (.step .start seeReceipt_undisturbed)
    (commitPayment_undisturbed _)) 2 ?_ (.ofTx ownPayment) ?_ ⟨⟨1, 0⟩, [], uintMax⟩ (.head _)
  · rintro ⟨⟨h, -⟩, -⟩
    exact h
  · change paid.mapWallet.lookup 2 = _
    decide +kernel

/-- The receipt is confirmed after the payment was made, and its coin is on offer again. -/
theorem spends_forgotten : ∃ w disabled,
    WalletRun env ownKeys (fun _ _ _ => True) w disabled ∧ 2 ∉ disabled ∧
    ∃ A B txout, w.mapWallet.lookup 1 = some A ∧ w.mapWallet.lookup 2 = some B ∧
      (∃ txin ∈ B.vin, txin.prevout = ⟨1, 0⟩) ∧ A.vout[0]? = some txout ∧
      ownKeys.isMine txout = true ∧ A.isSpent 0 = .ok false ∧
      ⟨1, 0⟩ ∈ w.availableCoins ownKeys (fun _ => false) fun _ _ => true := by
  have hrun : WalletRun env ownKeys (fun _ _ _ => True) confirmed _ :=
    .step (.step (.step .start trivial) trivial) trivial
  refine ⟨confirmed, _, hrun, ?_, confirmedReceipt, .ofTx ownPayment, ⟨50, [0x51]⟩,
    lookup_confirmed.1, lookup_confirmed.2, ⟨_, .head _, rfl⟩, rfl, by decide, by decide, ?_⟩
  · rintro ⟨⟨⟨h, -⟩, -⟩, -⟩
    exact h
  · decide +kernel

end Espers
