import Espers.Wallet.Caches

/-!
# What the caches of the wallet are worth

The caches of a transaction are dropped when the transaction itself is touched.  A debit that is
cached is stale once another transaction arrives or leaves whose outputs it should count, and every
amount is stale once the key store takes another script for its own.

* `CacheCoherent` : what is cached is what would be computed.
* `cachedQuery_spec` : a query of a coherent wallet answers what would be computed.
* `wallet_coherent` : **in every run of harmless steps every query answers what would be computed**.
* `staleDebit` : a parent that arrives after its child was asked for its debit.
-/

namespace Espers

open Exec Function AList
open Option (some)

variable {E : CacheEnv} {K K' : Keystore} {w w' : Wallet} {s s' : CachedWallet} {hash : Uint256}
  {wtx wtx' : CWalletTx} {txHash : CTransaction → Uint256}

/-- What is cached is what would be computed. -/
def CacheCoherent (E : CacheEnv) (s : CachedWallet) : Prop :=
  ∀ hash wtx, s.wallet.mapWallet.lookup hash = some wtx → ∀ (x : Amount) n,
    x.read (s.cache hash) = some n → x.compute (E.keystore s.mapScripts) s.wallet wtx = .ok n

/-! ### What the amounts depend on -/

theorem Wallet.sumDebit_congr {vin : List CTxIn}
    (h : ∀ txin ∈ vin, w.getDebitIn K txin = w'.getDebitIn K' txin) (nDebit : ℤ) :
    w.sumDebit K nDebit vin = w'.sumDebit K' nDebit vin := by
  induction vin generalizing nDebit with
  | nil => rfl
  | cons txin vin ih =>
    rw [sumDebit, sumDebit, h txin (.head _)]
    simp only [ih fun txin hm => h txin (.tail _ hm)]

theorem Keystore.sumCredit_congr {vout : List CTxOut}
    (h : ∀ txout ∈ vout, K.getCredit txout = K'.getCredit txout) (nCredit : ℤ) :
    K.sumCredit nCredit vout = K'.sumCredit nCredit vout := by
  induction vout generalizing nCredit with
  | nil => rfl
  | cons txout vout ih =>
    rw [sumCredit, sumCredit, h txout (.head _)]
    simp only [ih fun txout hm => h txout (.tail _ hm)]

/-- The flags are the same, and the outputs that are not spent count the same. -/
theorem Keystore.sumAvailable_congr {vfSpent vfSpent' : List Bool} {vout : List CTxOut} {i : ℕ}
    (hflag : ∀ j < vout.length, vfSpent.getD (i + j) false = vfSpent'.getD (i + j) false)
    (h : ∀ j txout, vout[j]? = some txout → vfSpent.getD (i + j) false = false →
      K.getCredit txout = K'.getCredit txout) (nCredit : ℤ) :
    K.sumAvailable vfSpent i nCredit vout = K'.sumAvailable vfSpent' i nCredit vout := by
  induction vout generalizing i nCredit with
  | nil => rfl
  | cons txout vout ih =>
    have hhead : vfSpent.getD i false = vfSpent'.getD i false := hflag 0 (by simp)
    have htail := ih (i := i + 1)
      (fun j hj => by
        have hj' := hflag (j + 1) (by simpa using hj)
        rwa [← add_assoc, add_right_comm] at hj')
      fun j txout' hout hfree => h (j + 1) txout' (by simpa using hout) (by
        rwa [← add_assoc, add_right_comm])
    rw [sumAvailable, sumAvailable, ← hhead]
    split_ifs with hspent
    · exact htail nCredit
    · rw [h 0 txout rfl (by simpa using hspent)]
      simp only [htail]

theorem Keystore.getCredit_congr {txout : CTxOut}
    (h : txout.nValue ≠ 0 → K'.isMine txout = K.isMine txout) :
    K.getCredit txout = K'.getCredit txout := by
  unfold getCredit
  by_cases hzero : txout.nValue = 0
  · simp [hzero]
  · rw [h hzero]

theorem Wallet.getDebitIn_eq (K : Keystore) (w : Wallet) (txin : CTxIn) :
    w.getDebitIn K txin = match w.txOf txin.prevout.hash with
      | none => 0
      | some tx => match tx.vout[txin.prevout.n]? with
        | none => 0
        | some txout => if K.isMine txout then txout.nValue else 0 := by
  unfold getDebitIn txOf
  cases w.mapWallet.lookup txin.prevout.hash <;> rfl

theorem Wallet.Same.getDebitIn (h : w.Same w') (txin : CTxIn) :
    w'.getDebitIn K txin = w.getDebitIn K txin := by
  rw [getDebitIn_eq, getDebitIn_eq, h]

theorem Amount.compute_same (h : w.Same w') (htx : wtx'.toCTransaction = wtx.toCTransaction)
    {x : Amount} (hflag : x = .availableCredit → ∀ i < wtx.vout.length,
      wtx'.vfSpent.getD i false = wtx.vfSpent.getD i false) :
    x.compute K w' wtx' = x.compute K w wtx := by
  have hvin : wtx'.vin = wtx.vin := congrArg CTransaction.vin htx
  have hvout : wtx'.vout = wtx.vout := congrArg CTransaction.vout htx
  cases x with
  | debit =>
    simp only [compute, hvin]
    exact Wallet.sumDebit_congr (fun txin _ => h.getDebitIn txin) 0
  | credit => simp only [compute, hvout]
  | availableCredit =>
    simp only [compute, hvout]
    refine Keystore.sumAvailable_congr (fun j hj => ?_) (fun _ _ _ _ => rfl) 0
    rw [zero_add]
    exact hflag rfl j hj

/-! ### Keeping coherence -/

theorem CacheCoherent.of_kept (hc : CacheCoherent E s)
    (h : ∀ hash wtx', s'.wallet.mapWallet.lookup hash = some wtx' → ∀ (x : Amount) n,
      x.read (s'.cache hash) = some n → ∃ wtx, s.wallet.mapWallet.lookup hash = some wtx ∧
        x.read (s.cache hash) = some n ∧ x.compute (E.keystore s'.mapScripts) s'.wallet wtx' =
          x.compute (E.keystore s.mapScripts) s.wallet wtx) : CacheCoherent E s' := by
  intro hash wtx' hw' x n hread
  obtain ⟨wtx, hw, hold, heq⟩ := h hash wtx' hw' x n hread
  rw [heq]
  exact hc hash wtx hw x n hold

@[simp] theorem Amount.read_dirty (x : Amount) : x.read .dirty = none := by
  cases x <;> rfl

theorem Amount.read_dropAvailable {x : Amount} {c : TxCache} {n : ℤ}
    (h : x.read c.dropAvailable = some n) : x.read c = some n ∧ x ≠ .availableCredit := by
  cases x with
  | debit => exact ⟨h, nofun⟩
  | credit => exact ⟨h, nofun⟩
  | availableCredit => cases h

theorem Amount.read_write {x y : Amount} {c : TxCache} {n m : ℤ}
    (h : y.read (x.write n c) = some m) : y = x ∧ m = n ∨ y ≠ x ∧ y.read c = some m := by
  cases x <;> cases y <;> first
    | exact .inl ⟨rfl, (some.inj h).symm⟩
    | exact .inr ⟨nofun, h⟩

/-- The flags of a transaction change; its available credit is dropped if they really do. -/
theorem CacheCoherent.touch (hc : CacheCoherent E s)
    (hw : s.wallet.mapWallet.lookup hash = some wtx)
    (htx : wtx'.toCTransaction = wtx.toCTransaction) {c : TxCache}
    (hcache : ∀ (x : Amount) n, x.read c = some n → x.read (s.cache hash) = some n ∧
      (x = .availableCredit → ∀ i < wtx.vout.length,
        wtx'.vfSpent.getD i false = wtx.vfSpent.getD i false)) :
    CacheCoherent E ((s.put hash wtx').setCache hash c) := by
  have hsame : s.wallet.Same (s.wallet.put hash wtx') := Wallet.same_put hw htx
  refine hc.of_kept fun hash' wtx'' hw' x n hread => ?_
  by_cases heq : hash' = hash
  · subst heq
    have hput : (s.wallet.put hash' wtx').mapWallet.lookup hash' = some wtx' :=
      lookup_insert _
    obtain rfl := some.inj (hput.symm.trans hw')
    simp only [CachedWallet.setCache, update_self] at hread
    obtain ⟨hold, hflag⟩ := hcache x n hread
    exact ⟨wtx, hw, hold, Amount.compute_same hsame htx hflag⟩
  · have hput : (s.wallet.put hash wtx').mapWallet.lookup hash' = s.wallet.mapWallet.lookup hash' :=
      lookup_insert_ne heq
    simp only [CachedWallet.setCache, update_of_ne heq] at hread
    exact ⟨wtx'', hput.symm.trans hw', hread, Amount.compute_same hsame rfl fun _ _ _ => rfl⟩

theorem CacheCoherent.dirty (hc : CacheCoherent E s) (hash : Uint256) :
    CacheCoherent E (s.setCache hash .dirty) := by
  refine hc.of_kept fun hash' wtx hw x n hread => ?_
  by_cases heq : hash' = hash
  · subst heq
    simp [CachedWallet.setCache] at hread
  · simp only [CachedWallet.setCache, update_of_ne heq] at hread
    exact ⟨wtx, hw, hread, rfl⟩

/-! ### The queries -/

theorem cachedQuery_frame (E : CacheEnv) (x : Amount) (hash : Uint256) (fUseCache : Bool)
    (s : CachedWallet) : (finalState (cachedQuery E x hash fUseCache s)).wallet = s.wallet ∧
      (finalState (cachedQuery E x hash fUseCache s)).mapScripts = s.mapScripts := by
  unfold cachedQuery
  rw [get_bind_apply]
  cases s.wallet.mapWallet.lookup hash with
  | none => exact ⟨rfl, rfl⟩
  | some wtx =>
    by_cases hzero : x.isZero E wtx = true
    · simp only [if_pos hzero]
      exact ⟨rfl, rfl⟩
    · simp only [if_neg hzero]
      cases if fUseCache || decide (x = .debit) then x.read (s.cache hash) else none with
      | some n => exact ⟨rfl, rfl⟩
      | none => cases x.compute (E.keystore s.mapScripts) s.wallet wtx <;> exact ⟨rfl, rfl⟩

/-- **A query of a coherent wallet answers what would be computed**, and leaves it coherent. -/
theorem cachedQuery_spec (hc : CacheCoherent E s) (x : Amount) (hash : Uint256) (fUseCache : Bool) :
    CacheCoherent E (finalState (cachedQuery E x hash fUseCache s)) ∧
      ∀ wtx, s.wallet.mapWallet.lookup hash = some wtx →
        answer (cachedQuery E x hash fUseCache s) = x.fromScratch E s wtx := by
  unfold cachedQuery
  rw [get_bind_apply]
  cases hw : s.wallet.mapWallet.lookup hash with
  | none => exact ⟨hc, nofun⟩
  | some wtx =>
    simp only [some.injEq, forall_eq', Amount.fromScratch]
    by_cases hzero : x.isZero E wtx = true
    · rw [if_pos hzero, if_pos hzero]
      exact ⟨hc, rfl⟩
    · rw [if_neg hzero, if_neg hzero]
      cases hread : if fUseCache || decide (x = .debit) then x.read (s.cache hash) else none with
      | some n =>
        have hold : x.read (s.cache hash) = some n := by
          split_ifs at hread
          exact hread
        rw [hc hash wtx hw x n hold]
        exact ⟨hc, rfl⟩
      | none =>
        cases hcomp : x.compute (E.keystore s.mapScripts) s.wallet wtx with
        | error e => exact ⟨hc, rfl⟩
        | ok n =>
          refine ⟨?_, rfl⟩
          -- what is written is what was just computed
          intro hash' wtx' hw' y m hread'
          by_cases heq : hash' = hash
          · subst heq
            obtain rfl := some.inj (hw.symm.trans hw')
            simp only [finalState, CachedWallet.setCache, bind_apply, lift_ok,
              set_apply, pure_apply, update_self] at hread'
            rcases Amount.read_write hread' with ⟨rfl, rfl⟩ | ⟨-, hold⟩
            · exact hcomp
            · exact hc hash' wtx hw y m hold
          · simp only [finalState, CachedWallet.setCache, bind_apply, lift_ok,
              set_apply, pure_apply, update_of_ne heq] at hread'
            exact hc hash' wtx' hw' y m hread'

/-! ### `WalletUpdateSpent` -/

/-- What the steps of `WalletUpdateSpent` keep. -/
structure CacheStep (E : CacheEnv) (s s' : CachedWallet) : Prop where
  coherent : CacheCoherent E s → CacheCoherent E s'
  mapScripts : s'.mapScripts = s.mapScripts

theorem CacheStep.refl (s : CachedWallet) : CacheStep E s s := ⟨id, rfl⟩

theorem CacheStep.trans {s1 s2 s3 : CachedWallet} (h : CacheStep E s1 s2) (h' : CacheStep E s2 s3) :
    CacheStep E s1 s3 := ⟨h'.coherent ∘ h.coherent, h'.mapScripts.trans h.mapScripts⟩

/-- One turn of the first loop of `WalletUpdateSpent`. -/
theorem markInputsCached_cons (E : CacheEnv) (s : CachedWallet) (txin : CTxIn) (vin : List CTxIn) :
    ∃ s', CacheStep E s s' ∧ (markInputsCached E (txin :: vin) s = markInputsCached E vin s' ∧
          markInputs (E.keystore s.mapScripts) (txin :: vin) s.wallet =
            markInputs (E.keystore s.mapScripts) vin s'.wallet ∨
        ∃ e, markInputsCached E (txin :: vin) s = .error e s') := by
  rw [markInputsCached, get_bind_apply, markInputs, get_bind_apply]
  cases hw : s.wallet.mapWallet.lookup txin.prevout.hash with
  | none => exact ⟨s, .refl s, .inl ⟨rfl, rfl⟩⟩
  | some wtx =>
    cases hout : wtx.vout[txin.prevout.n]? with
    | none => exact ⟨s, .refl s, .inl ⟨by simp only [hout], by simp only [hout]⟩⟩
    | some txout =>
      obtain ⟨hlt, hspent, hmark⟩ := CWalletTx.spends_of_vout hout
      simp only [hout, hspent]
      rw [bind_of_ok (lift_ok _ s), bind_of_ok (lift_ok _ s.wallet)]
      by_cases hcond : (!wtx.vfSpent.getD txin.prevout.n false && E.isMine s.mapScripts txout) =
        true
      · obtain ⟨hwallet, hscripts⟩ := cachedQuery_frame E .credit txin.prevout.hash true s
        have hcoherent : CacheCoherent E s → _ :=
          fun hc => (cachedQuery_spec hc .credit txin.prevout.hash true).1
        rw [if_pos hcond,
          if_pos (show (!_ && (E.keystore s.mapScripts).isMine txout) = true from hcond)]
        cases hq : cachedQuery E .credit txin.prevout.hash true s with
        | error e s1 =>
          rw [hq] at hcoherent hscripts
          exact ⟨s1, ⟨hcoherent, hscripts⟩, .inr ⟨e, by rw [bind_of_error hq]⟩⟩
        | ok n s1 =>
          rw [hq] at hcoherent hwallet hscripts
          rw [bind_of_ok hq, hmark, bind_of_ok (lift_ok _ s1), bind_of_ok (lift_ok _ s.wallet)]
          have hw1 : s1.wallet.mapWallet.lookup txin.prevout.hash = some wtx := by
            rw [← hw]
            exact congrArg (fun w : Wallet => w.mapWallet.lookup txin.prevout.hash) hwallet
          refine ⟨_, ⟨fun hc => ?_, ?_⟩, .inl ⟨rfl, ?_⟩⟩
          · refine .touch (s := s1) (hcoherent hc) hw1 (by rfl) fun x n hread => ?_
            obtain ⟨hold, hne⟩ := Amount.read_dropAvailable hread
            exact ⟨hold, fun heq => absurd heq hne⟩
          · exact hscripts
          · change markInputs _ vin (s.wallet.put _ _) = markInputs _ vin (s1.wallet.put _ _)
            rw [show s1.wallet = s.wallet from hwallet]
      · rw [if_neg hcond,
          if_neg (show ¬ (!_ && (E.keystore s.mapScripts).isMine txout) = true from hcond)]
        exact ⟨s, .refl s, .inl ⟨rfl, rfl⟩⟩

/-- The first loop keeps coherence, and does to the wallet what it does without caches. -/
theorem markInputsCached_spec (E : CacheEnv) (s : CachedWallet) (vin : List CTxIn) :
    CacheStep E s (finalState (markInputsCached E vin s)) ∧
      ∀ u s', markInputsCached E vin s = .ok u s' →
        markInputs (E.keystore s.mapScripts) vin s.wallet = .ok u s'.wallet := by
  induction vin generalizing s with
  | nil =>
    refine ⟨.refl s, fun u s' hrun => ?_⟩
    cases hrun
    rfl
  | cons txin vin ih =>
    obtain ⟨s1, hstep, ⟨heq, heq'⟩ | ⟨e, heq⟩⟩ := markInputsCached_cons E s txin vin
    · obtain ⟨hrest, hok⟩ := ih s1
      rw [hstep.mapScripts] at hok
      rw [heq, heq']
      exact ⟨hstep.trans hrest, hok⟩
    · rw [heq]
      exact ⟨hstep, nofun⟩

/-- One turn of the second loop of `WalletUpdateSpent`. -/
theorem unmarkOutputsCached_cons (E : CacheEnv) (s : CachedWallet) (hash : Uint256) (i : ℕ)
    (txout : CTxOut) (vout : List CTxOut) :
    ∃ s', CacheStep E s s' ∧
      (unmarkOutputsCached E hash i (txout :: vout) s = unmarkOutputsCached E hash (i + 1) vout s' ∧
          unmarkOutputs (E.keystore s.mapScripts) hash i (txout :: vout) s.wallet =
            unmarkOutputs (E.keystore s.mapScripts) hash (i + 1) vout s'.wallet ∨
        ∃ e, unmarkOutputsCached E hash i (txout :: vout) s = .error e s') := by
  rw [unmarkOutputsCached, get_bind_apply, unmarkOutputs]
  by_cases hmine : E.isMine s.mapScripts txout = true
  · rw [if_pos hmine, if_pos (show (E.keystore s.mapScripts).isMine txout = true from hmine),
      get_bind_apply]
    cases hw : s.wallet.mapWallet.lookup hash with
    | none => exact ⟨s, .refl s, .inr ⟨_, rfl⟩⟩
    | some wtx =>
      by_cases hlt : i ≥ wtx.vout.length
      · have hunmark : wtx.markUnspent i =
          .error (.exception "CWalletTx::MarkUnspent() : nOut out of range") := if_pos hlt
        exact ⟨s, .refl s, .inr ⟨_, by simp only [hunmark]; rfl⟩⟩
      · have hunmark : wtx.markUnspent i = .ok { wtx with vfSpent := wtx.resized.set i false } :=
          if_neg hlt
        refine ⟨_, ⟨fun hc => ?_, ?_⟩,
          .inl ⟨by simp only [hunmark]; rfl, by simp only [hunmark]; rfl⟩⟩
        · refine hc.touch hw (by rfl) fun x n hread => ?_
          by_cases hflag : wtx.vfSpent.getD i false = true
          · rw [if_pos hflag] at hread
            obtain ⟨hold, hne⟩ := Amount.read_dropAvailable hread
            exact ⟨hold, fun heq => absurd heq hne⟩
          · rw [if_neg hflag] at hread
            refine ⟨hread, fun _ j hj => ?_⟩
            -- a flag that is not set is cleared
            rw [wtx.getD_resized_set false hj]
            split_ifs with hji
            · rw [hji]
              exact (Bool.eq_false_of_not_eq_true hflag).symm
            · rfl
        · rfl
  · rw [if_neg hmine, if_neg (show ¬ (E.keystore s.mapScripts).isMine txout = true from hmine)]
    exact ⟨s, .refl s, .inl ⟨rfl, rfl⟩⟩

/-- The second loop keeps coherence, and does to the wallet what it does without caches. -/
theorem unmarkOutputsCached_spec (E : CacheEnv) (s : CachedWallet) (hash : Uint256) (i : ℕ)
    (vout : List CTxOut) :
    CacheStep E s (finalState (unmarkOutputsCached E hash i vout s)) ∧
      ∀ u s', unmarkOutputsCached E hash i vout s = .ok u s' →
        unmarkOutputs (E.keystore s.mapScripts) hash i vout s.wallet = .ok u s'.wallet := by
  induction vout generalizing s i with
  | nil =>
    refine ⟨.refl s, fun u s' hrun => ?_⟩
    cases hrun
    rfl
  | cons txout vout ih =>
    obtain ⟨s1, hstep, ⟨heq, heq'⟩ | ⟨e, heq⟩⟩ := unmarkOutputsCached_cons E s hash i txout vout
    · obtain ⟨hrest, hok⟩ := ih s1 (i + 1)
      rw [hstep.mapScripts] at hok
      rw [heq, heq']
      exact ⟨hstep.trans hrest, hok⟩
    · rw [heq]
      exact ⟨hstep, nofun⟩

theorem walletUpdateSpentCached_step (E : CacheEnv) (txHash : CTransaction → Uint256)
    (s : CachedWallet) (tx : CTransaction) (fBlock : Bool) :
    CacheStep E s (finalState (walletUpdateSpentCached E txHash tx fBlock s)) := by
  have hin := (markInputsCached_spec E s tx.vin).1
  unfold walletUpdateSpentCached
  cases hrun : markInputsCached E tx.vin s with
  | error e s1 =>
    rw [hrun] at hin
    rw [bind_of_error hrun]
    exact hin
  | ok u s1 =>
    rw [hrun] at hin
    rw [bind_of_ok hrun]
    cases fBlock with
    | false => exact hin
    | true => exact hin.trans (unmarkOutputsCached_spec E s1 _ 0 tx.vout).1

theorem addToWalletCached_rest {b fBlock : Bool} {tx : CTransaction} (hc : CacheCoherent E s') :
    CacheCoherent E (finalState ((do
      set s'
      if b then pure false
      else do
        walletUpdateSpentCached E txHash tx fBlock
        pure true : EStateM Stop CachedWallet Bool) s)) := by
  cases b with
  | true => exact hc
  | false =>
    change CacheCoherent E (finalState ((do
      walletUpdateSpentCached E txHash tx fBlock
      pure true : EStateM Stop CachedWallet Bool) s'))
    rw [finalState_bind_pure]
    exact (walletUpdateSpentCached_step E txHash s' tx fBlock).coherent hc

/-! ### Harmless steps -/

/-- A transaction spends an own output of another one that is worth something. -/
def SpendsValue (K : Keystore) (wtx : CWalletTx) (hash : Uint256) (vout : List CTxOut) : Prop :=
  ∃ txin ∈ wtx.vin, txin.prevout.hash = hash ∧
    ∃ txout, vout[txin.prevout.n]? = some txout ∧ K.isMine txout = true ∧ txout.nValue ≠ 0

/-- The transactions whose debit is cached spend nothing of a transaction. -/
def Uncounted (E : CacheEnv) (s : CachedWallet) (hash : Uint256) (vout : List CTxOut) : Prop :=
  ∀ hash' wtx, hash' ≠ hash → s.wallet.mapWallet.lookup hash' = some wtx →
    (s.cache hash').nDebitCached ≠ none → ¬ SpendsValue (E.keystore s.mapScripts) wtx hash vout

/-- Outputs that a cached amount of a transaction rests on. -/
def Amount.Counts (w : Wallet) (wtx : CWalletTx) (txout : CTxOut) : Amount → Prop
  | debit => ∃ txin ∈ wtx.vin, ∃ prev, w.mapWallet.lookup txin.prevout.hash = some prev ∧
      prev.vout[txin.prevout.n]? = some txout
  | credit => txout ∈ wtx.vout
  | availableCredit => ∃ i : ℕ, wtx.vout[i]? = some txout ∧ wtx.vfSpent.getD i false = false

/-- A step of the wallet, or a query. -/
inductive CacheOp where
  | addToWallet (writes : Bool) (wtxIn : CWalletTx)
  | walletUpdateSpent (tx : CTransaction) (fBlock : Bool)
  | eraseFromWallet (hash : Uint256)
  | markDirty (hash : Uint256)
  | markAllDirty
  | addCScript (redeemScript : CScript)
  | query (x : Amount) (hash : Uint256) (fUseCache : Bool)

/-- The wallet after a step; an exception leaves what was done. -/
def CacheOp.exec (E : CacheEnv) (txHash : CTransaction → Uint256) (s : CachedWallet) :
    CacheOp → CachedWallet
  | addToWallet writes wtxIn => finalState (addToWalletCached E txHash writes wtxIn s)
  | walletUpdateSpent tx fBlock => finalState (walletUpdateSpentCached E txHash tx fBlock s)
  | eraseFromWallet hash => s.eraseFromWallet hash
  | markDirty hash => s.setCache hash .dirty
  | markAllDirty => { s with cache := fun _ => .dirty }
  | addCScript redeemScript => s.addCScript redeemScript
  | query x hash fUseCache => finalState (cachedQuery E x hash fUseCache s)

/-- The step changes no amount that is cached for another transaction: the outputs of a transaction
that arrives or leaves are not spent by one whose debit is cached, and a script makes no difference
to the outputs that cached amounts rest on. -/
def CacheOp.Harmless (E : CacheEnv) (txHash : CTransaction → Uint256) (s : CachedWallet) :
    CacheOp → Prop
  | addToWallet _ wtxIn => s.wallet.mapWallet.lookup (txHash wtxIn.toCTransaction) = none →
      Uncounted E s (txHash wtxIn.toCTransaction) wtxIn.vout
  | eraseFromWallet hash =>
    ∀ wtx, s.wallet.mapWallet.lookup hash = some wtx → Uncounted E s hash wtx.vout
  | addCScript redeemScript => ∀ hash wtx, s.wallet.mapWallet.lookup hash = some wtx →
      ∀ x : Amount, x.read (s.cache hash) ≠ none → ∀ txout, x.Counts s.wallet wtx txout →
        txout.nValue ≠ 0 →
          E.isMine (s.addCScript redeemScript).mapScripts txout = E.isMine s.mapScripts txout
  | walletUpdateSpent _ _ | markDirty _ | markAllDirty | query _ _ _ => True

theorem getDebitIn_of_not_spendsValue {txin : CTxIn} (h : ¬ SpendsValue K wtx hash wtx'.vout)
    (hm : txin ∈ wtx.vin) (heq : txin.prevout.hash = hash)
    (hw : w.mapWallet.lookup hash = some wtx') : w.getDebitIn K txin = 0 := by
  unfold Wallet.getDebitIn
  rw [heq, hw]
  cases hout : wtx'.vout[txin.prevout.n]? with
  | none => simp only [hout]
  | some txout =>
    simp only [hout]
    split_ifs with hmine
    · by_contra hne
      exact h ⟨txin, hm, heq, txout, hout, hmine, hne⟩
    · rfl

theorem getDebitIn_of_none {txin : CTxIn} (hw : w.mapWallet.lookup txin.prevout.hash = none) :
    w.getDebitIn K txin = 0 := by
  unfold Wallet.getDebitIn
  rw [hw]

theorem getDebitIn_of_lookup {txin : CTxIn}
    (hw : w'.mapWallet.lookup txin.prevout.hash = w.mapWallet.lookup txin.prevout.hash) :
    w'.getDebitIn K txin = w.getDebitIn K txin := by
  unfold Wallet.getDebitIn
  rw [hw]

/-- An entry comes or goes, and all others stay: what is cached for them stays right if it does not
rest on the entry. -/
theorem CacheCoherent.of_entry (hc : CacheCoherent E s) (hscripts : s'.mapScripts = s.mapScripts)
    (hdirty : s'.cache hash = .dirty)
    (hne : ∀ hash' ≠ hash, s'.wallet.mapWallet.lookup hash' = s.wallet.mapWallet.lookup hash' ∧
      s'.cache hash' = s.cache hash')
    (hdebit : ∀ hash' wtx, hash' ≠ hash → s.wallet.mapWallet.lookup hash' = some wtx →
      (s.cache hash').nDebitCached ≠ none → ∀ txin ∈ wtx.vin, txin.prevout.hash = hash →
        s'.wallet.getDebitIn (E.keystore s.mapScripts) txin =
          s.wallet.getDebitIn (E.keystore s.mapScripts) txin) : CacheCoherent E s' := by
  refine hc.of_kept fun hash' wtx hw' x n hread => ?_
  have hne' : hash' ≠ hash := by
    rintro rfl
    rw [hdirty, Amount.read_dirty] at hread
    cases hread
  obtain ⟨hlookup, hcache⟩ := hne hash' hne'
  rw [hlookup] at hw'
  rw [hcache] at hread
  refine ⟨wtx, hw', hread, ?_⟩
  rw [hscripts]
  cases x with
  | credit => rfl
  | availableCredit => rfl
  | debit =>
    refine Wallet.sumDebit_congr (fun txin hm => ?_) 0
    by_cases heq : txin.prevout.hash = hash
    · refine hdebit hash' wtx hne' hw' (fun hnone => ?_) txin hm heq
      rw [Amount.read, hnone] at hread
      cases hread
    · exact getDebitIn_of_lookup (hne _ heq).1

/-- **What a harmless step preserves.** -/
theorem CacheOp.exec_coherent (hc : CacheCoherent E s) {op : CacheOp} (h : op.Harmless E txHash s) :
    CacheCoherent E (op.exec E txHash s) := by
  cases op with
  | walletUpdateSpent tx fBlock =>
    exact (walletUpdateSpentCached_step E txHash s tx fBlock).coherent hc
  | markDirty hash => exact hc.dirty hash
  | markAllDirty => exact fun _ _ _ x n hread => by simp [exec] at hread
  | query x hash fUseCache => exact (cachedQuery_spec hc x hash fUseCache).1
  | eraseFromWallet hash =>
    refine hc.of_entry rfl (update_self ..) (fun hash' hne => ?_) ?_
    · exact ⟨lookup_erase_ne hne, update_of_ne hne ..⟩
    · intro hash' wtx hne hw hcached txin hm heq
      have hgone : (s.eraseFromWallet hash).wallet.getDebitIn (E.keystore s.mapScripts) txin =
        0 := by
        refine getDebitIn_of_none ?_
        rw [heq]
        exact lookup_erase hash _
      rw [exec, hgone]
      cases hold : s.wallet.mapWallet.lookup hash with
      | none => rw [getDebitIn_of_none (by rw [heq, hold])]
      | some prev =>
        rw [getDebitIn_of_not_spendsValue (h prev hold hash' wtx hne hw hcached) hm heq hold]
  | addCScript redeemScript =>
    have hsame : (s.addCScript redeemScript).wallet = s.wallet ∧
        (s.addCScript redeemScript).cache = s.cache := by
      unfold CachedWallet.addCScript
      split_ifs <;> exact ⟨rfl, rfl⟩
    refine hc.of_kept fun hash wtx hw x n hread => ?_
    simp only [exec, hsame.1, hsame.2] at hw hread ⊢
    refine ⟨wtx, hw, hread, ?_⟩
    have hmine := h hash wtx hw x (by rw [hread]; exact nofun)
    cases x with
    | debit =>
      refine Wallet.sumDebit_congr (fun txin hm => ?_) 0
      unfold Wallet.getDebitIn
      cases hprev : s.wallet.mapWallet.lookup txin.prevout.hash with
      | none => rfl
      | some prev =>
        cases hout : prev.vout[txin.prevout.n]? with
        | none => simp only [hout]
        | some txout =>
          simp only [hout, CacheEnv.keystore]
          by_cases hzero : txout.nValue = 0
          · simp [hzero]
          · simp only [hmine txout ⟨txin, hm, prev, hprev, hout⟩ hzero]
            rfl
    | credit =>
      exact Keystore.sumCredit_congr (fun txout hm => Keystore.getCredit_congr fun hne =>
        (hmine txout hm hne).symm) 0
    | availableCredit =>
      refine Keystore.sumAvailable_congr (fun _ _ => rfl) (fun i txout hout hfree => ?_) 0
      rw [zero_add] at hfree
      exact Keystore.getCredit_congr fun hne => (hmine txout ⟨i, hout, hfree⟩ hne).symm
  | addToWallet writes wtxIn =>
    -- the entry is put under its hash, with no caches
    have hput : ∀ wtx, (s.wallet.mapWallet.lookup (txHash wtxIn.toCTransaction) = none →
      wtx = wtxIn) → (∀ prev, s.wallet.mapWallet.lookup (txHash wtxIn.toCTransaction) = some prev →
          wtx.toCTransaction = prev.toCTransaction) →
        CacheCoherent E ((s.put (txHash wtxIn.toCTransaction) wtx).setCache
          (txHash wtxIn.toCTransaction) .dirty) := by
      intro wtx hnew hmerged
      generalize hhash : txHash wtxIn.toCTransaction = hash at *
      cases hw : s.wallet.mapWallet.lookup hash with
      | some prev =>
        exact hc.touch hw (hmerged prev hw) fun x n hread => by simp at hread
      | none =>
        obtain rfl := hnew hw
        refine hc.of_entry rfl (update_self ..) (fun hash' hne => ?_) ?_
        · exact ⟨lookup_insert_ne hne, update_of_ne hne ..⟩
        · intro hash' child hne hchild hcached txin hm heq
          have hold : s.wallet.getDebitIn (E.keystore s.mapScripts) txin = 0 :=
            getDebitIn_of_none (by rw [heq, hw])
          rw [hold]
          refine getDebitIn_of_not_spendsValue ?_ hm heq (lookup_insert _)
          rw [Harmless, hhash] at h
          exact h hw hash' child hne hchild hcached
    rw [exec, addToWalletCached, get_bind_apply]
    cases hw : s.wallet.mapWallet.lookup (txHash wtxIn.toCTransaction) with
    | none => exact addToWalletCached_rest (hput wtxIn (fun _ => rfl) (by simp [hw]))
    | some prev =>
      refine addToWalletCached_rest (hput (mergeTx prev wtxIn).1 (by simp [hw]) fun prev' hprev =>
        ?_)
      obtain rfl := some.inj (hw.symm.trans hprev)
      rfl

/-- The environment when coinbases and coinstakes are as deep as given. -/
def CacheEnv.atDepth (E : CacheEnv) (immature : CWalletTx → Bool) : CacheEnv :=
  { E with immature := immature }

/-- The wallets that a run of allowed steps reaches from a loaded wallet, which has no caches.  The
chain may grow or shrink between two steps. -/
inductive CacheRun (E : CacheEnv) (txHash : CTransaction → Uint256)
    (Allowed : CachedWallet → CacheOp → Prop) : CachedWallet → Prop
  | load (wallet : Wallet) (mapScripts : List CScript) :
      CacheRun E txHash Allowed ⟨wallet, fun _ => .dirty, mapScripts⟩
  | step {s : CachedWallet} (immature : CWalletTx → Bool) (op : CacheOp) :
      CacheRun E txHash Allowed s → Allowed s op →
        CacheRun E txHash Allowed (op.exec (E.atDepth immature) txHash s)

theorem CacheRun.coherent (h : CacheRun E txHash (fun s op => op.Harmless E txHash s) s) :
    CacheCoherent E s := by
  induction h with
  | load wallet mapScripts => exact fun _ _ _ x n hread => by simp at hread
  | @step s immature op _ hop ih =>
    exact CacheOp.exec_coherent (E := E.atDepth immature) ih (by cases op <;> exact hop)

/-- **In every run of harmless steps every query answers what would be computed.** -/
theorem wallet_coherent (h : CacheRun E txHash (fun s op => op.Harmless E txHash s) s)
    (immature : CWalletTx → Bool) (hash : Uint256) (wtx : CWalletTx)
    (hw : s.wallet.mapWallet.lookup hash = some wtx) (x : Amount) (fUseCache : Bool) :
    answer (cachedQuery (E.atDepth immature) x hash fUseCache s) =
      x.fromScratch (E.atDepth immature) s wtx :=
  (cachedQuery_spec (E := E.atDepth immature) h.coherent x hash fUseCache).2 wtx hw

/-! ### A parent that arrives late -/

namespace staleDebit

/-- Everything is the wallet's own, and everything is deep enough. -/
def env : CacheEnv := ⟨fun _ _ => true, 1, fun _ => false⟩

def parent : CWalletTx := .ofTx ⟨1, 1, [], [⟨5, []⟩], 0⟩

def child : CWalletTx := .ofTx ⟨1, 2, [⟨⟨1, 0⟩, [], 0⟩], [⟨4, []⟩], 0⟩

/-- The wallet before anything arrives. -/
def empty : CachedWallet := ⟨⟨∅⟩, fun _ => .dirty, []⟩

/-- A wallet that has the parent when it is loaded. -/
def withParent : CachedWallet :=
    ⟨⟨(∅ : AList fun _ : Uint256 => CWalletTx).insert 1 parent⟩, fun _ => .dirty, []⟩

/-- The child arrives and is asked for its debit; then its parent arrives. -/
def childFirst : CachedWallet :=
  [CacheOp.addToWallet true child, .query .debit 2 true, .addToWallet true parent].foldl
    (fun s op => op.exec env (fun tx => tx.nTime) s) empty

/-- The child arrives when the parent is there, and is asked for its debit. -/
def parentFirst : CachedWallet :=
  [CacheOp.addToWallet true child, .query .debit 2 true].foldl
    (fun s op => op.exec env (fun tx => tx.nTime) s) withParent

end staleDebit

open staleDebit

/-- When the parent is there first, the debit of the child is right. -/
theorem wallet_coherent_parentFirst :
    answer (cachedQuery env .debit 2 true parentFirst) = .ok 5 := by
  have hrun : CacheRun env (fun tx => tx.nTime) (fun s op => op.Harmless env (fun tx => tx.nTime) s)
      parentFirst :=
    .step (fun _ => false) (.query .debit 2 true) (.step (fun _ => false) (.addToWallet true child)
      (.load withParent.wallet []) fun _ _ _ _ _ hcached => absurd rfl hcached) trivial
  have h := wallet_coherent hrun (fun _ => false) 2 child (by decide) .debit true
  exact h.trans (by decide)

/-- A debit that is asked for before the parent arrives is not dropped when it does: it stays
zero. -/
theorem debit_stale : CacheRun env (fun tx => tx.nTime) (fun _ _ => True) childFirst ∧
      childFirst.wallet.mapWallet.lookup 2 = some child ∧
      answer (cachedQuery env .debit 2 true childFirst) = .ok 0 ∧
      Amount.debit.fromScratch env childFirst child = .ok 5 := by
  refine ⟨?_, by decide, by decide, by decide⟩
  exact .step (fun _ => false) (.addToWallet true parent)
    (.step (fun _ => false) (.query .debit 2 true)
    (.step (fun _ => false) (.addToWallet true child) (.load ⟨∅⟩ []) trivial) trivial) trivial

end Espers
