import Espers.Chain.MempoolRun
import Espers.Script.Frame

/-!
# Policy flags and consensus flags

A transaction enters the memory pool under the standard flags, and a block is connected under flags
of its own.  The standard flags only add `DISCOURAGE_UPGRADABLE_NOPS`, which stops scripts and does
nothing else.

* `Looser flags flags'` : the second flags differ in `DISCOURAGE_UPGRADABLE_NOPS` only, and do not
  add it.
* `evalScript_looser` : a script that succeeds under flags succeeds under looser ones, with the same
  stack.
* `policy_implies_consensus` : **what the pool accepts, the checks of a block accept**.
-/

namespace Espers

open Exec Bool Option AList

/-! ### Flags -/

/-- The flags differ in `DISCOURAGE_UPGRADABLE_NOPS` only, and the second do not add it. -/
structure Looser (flags flags' : ℕ) : Prop where
  nullDummy : hasFlag flags' scriptVerifyNullDummy = hasFlag flags scriptVerifyNullDummy
  strictEnc : hasFlag flags' scriptVerifyStrictEnc = hasFlag flags scriptVerifyStrictEnc
  allowEmptySig : hasFlag flags' scriptVerifyAllowEmptySig = hasFlag flags scriptVerifyAllowEmptySig
  fixHashtype : hasFlag flags' scriptVerifyFixHashtype = hasFlag flags scriptVerifyFixHashtype
  checkLockTime : hasFlag flags' scriptVerifyCheckLockTimeVerify =
    hasFlag flags scriptVerifyCheckLockTimeVerify
  discourage : hasFlag flags' scriptVerifyDiscourageUpgradableNops = true →
    hasFlag flags scriptVerifyDiscourageUpgradableNops = true

theorem looser_mandatory : Looser standardScriptVerifyFlags mandatoryScriptVerifyFlags := by
  constructor <;> decide

theorem looser_blockFlags {E : Env} {nTime : ℕ} (h : isProtocolV3 E nTime = true) :
    Looser standardScriptVerifyFlags (blockFlags E nTime) := by
  rw [blockFlags, if_pos h]
  constructor <;> decide

/-! ### Evaluating a script under looser flags -/

variable {E : ScriptEnv} {c : EvalContext} {flags' : ℕ}

theorem Looser.checkSigEncoding {flags : ℕ} (h : Looser flags flags') (vchSig : Valtype) :
    checkSigEncoding vchSig flags' = checkSigEncoding vchSig flags := by
  rw [Espers.checkSigEncoding, h.allowEmptySig, h.fixHashtype]
  rfl

theorem Looser.callCheckSig (h : Looser c.flags flags') (vchSig vchPubKey : Valtype)
    (scriptCode : CScript) :
    callCheckSig E { c with flags := flags' } vchSig vchPubKey scriptCode =
      callCheckSig E c vchSig vchPubKey scriptCode := by
  simp only [Espers.callCheckSig, h.checkSigEncoding]

theorem Looser.strictEncoding (h : Looser c.flags flags') (vchSig vchPubKey : Valtype) :
    strictEncoding { c with flags := flags' } vchSig vchPubKey =
    strictEncoding c vchSig vchPubKey := by
  simp only [Espers.strictEncoding, h.checkSigEncoding, h.strictEnc]

theorem Looser.multiSigLoop (h : Looser c.flags flags') (scriptCode : CScript)
    (nKeysCount nSigsCount isig ikey : ℕ) :
    multiSigLoop E { c with flags := flags' } scriptCode nKeysCount nSigsCount isig ikey =
      multiSigLoop E c scriptCode nKeysCount nSigsCount isig ikey := by
  induction nKeysCount generalizing nSigsCount isig ikey with
  | zero => cases nSigsCount <;> rfl
  | succ nKeysCount ih =>
    cases nSigsCount with
    | zero => rfl
    | succ nSigsCount => simp only [Espers.multiSigLoop, h.strictEncoding, h.callCheckSig, ih]

theorem returnIf_below {b b' : Bool} (h : b' = true → b = true) :
    Below (returnIf b) (returnIf b') := by
  cases b with
  | true => exact .throw _ _
  | false =>
    have hb : b' = false := by
      by_contra hne
      exact false_ne_true (h (not_eq_false _ ▸ hne))
    rw [hb]
    exact .refl _

section

variable (h : Looser c.flags flags')
include h

theorem Looser.execOpcode (fExec : Bool) (op : Opcode) :
    Below (execOpcode E c fExec op) (execOpcode E { c with flags := flags' } fExec op) := by
  cases op with
  | opCheckLockTimeVerify =>
    simp only [Espers.execOpcode, h.checkLockTime]
    exact .ite (returnIf_below h.discourage) (.refl _)
  | opUpgradableNop => exact returnIf_below h.discourage
  | opCheckSig fVerify =>
    simp only [Espers.execOpcode, h.strictEncoding, h.callCheckSig]
    exact .refl _
  | opCheckMultiSig fVerify =>
    simp only [Espers.execOpcode, checkMultiSig, checkMultiSigKeys, h.multiSigLoop, h.nullDummy]
    exact .refl _
  | _ => exact .refl _

theorem Looser.execInstruction (opcode : UInt8) (vch : Valtype) :
    Below (execInstruction E c opcode vch)
    (execInstruction E { c with flags := flags' } opcode vch) :=
  (Below.refl _).bind fun _ => Below.ite (Below.refl _) (.ite (h.execOpcode _ _) (.refl _))

theorem Looser.evalStep : Below (evalStep E c) (evalStep E { c with flags := flags' }) := by
  intro s a t hs
  cases hget : getOp s.pc with
  | none =>
    rw [evalStep_of_none hget] at hs
    cases hs
  | some r =>
    obtain ⟨opcode, vch, pc⟩ := r
    rw [evalStep_eq hget] at hs ⊢
    have hbelow : Below (afterRead E c opcode vch)
      (afterRead E { c with flags := flags' } opcode vch) := by
      refine (Below.refl _).bind fun _ => (Below.refl _).bind fun _ =>
        (Below.refl _).bind fun _ => ?_
      exact (h.execInstruction opcode vch).bind fun _ => Below.refl _
    exact hbelow _ a t hs

theorem Looser.evalLoop (fuel : ℕ) :
    Below (evalLoop E c fuel) (evalLoop E { c with flags := flags' } fuel) := by
  induction fuel with
  | zero => exact .refl _
  | succ fuel ih =>
    exact (Below.refl _).bind fun s => Below.ite (Below.refl _) (h.evalStep.bind fun _ => ih)

/-- **A script that succeeds under flags succeeds under looser ones**, with the same stack. -/
theorem evalScript_looser {stack stack' : List Valtype}
    {script : CScript} (hev : evalScript E c stack script = (true, stack')) :
    evalScript E { c with flags := flags' } stack script = (true, stack') := by
  unfold evalScript runScript at hev ⊢
  by_cases hlen : script.length > 10000
  · rw [if_pos hlen] at hev
    cases hev
  · rw [if_neg hlen] at hev ⊢
    cases hrun : evalLoop E c script.length (.start stack script) with
    | error e s =>
      simp only [hrun] at hev
      cases hev
    | ok u s =>
      rw [h.evalLoop _ _ u s hrun]
      simp only [hrun] at hev
      exact hev

end

/-! ### Verifying an input -/

theorem callEvalScript_bind {α : Type} (stack : List Valtype) (script : CScript)
    (f : Bool × List Valtype → Verify α) (evals : List (List Valtype × CScript)) :
    (callEvalScript E c stack script >>= f) evals =
      f (evalScript E c stack script) (evals ++ [(stack, script)]) := rfl

variable {scriptSig scriptPubKey : CScript}

/-- What it takes for an input to be good. -/
theorem verifies_eq_true : verifies E c scriptSig scriptPubKey = true ↔ ∃ stackCopy stack,
      evalScript E c [] scriptSig = (true, stackCopy) ∧
      evalScript E c stackCopy scriptPubKey = (true, stack) ∧ trueOnTop stack = true ∧
      (isPayToScriptHash scriptPubKey = true → isPushOnly scriptSig = true ∧
        ∃ pubKeySerialized rest stack', stackCopy = pubKeySerialized :: rest ∧
          evalScript E c rest pubKeySerialized = (true, stack') ∧ trueOnTop stack' = true) := by
  unfold verifies verifyScript
  rw [callEvalScript_bind]
  rcases evalScript E c [] scriptSig with ⟨_ | _, stackCopy⟩
  · simp
  · simp only [Bool.not_true, Bool.false_eq_true, if_false, callEvalScript_bind]
    rcases hpub : evalScript E c stackCopy scriptPubKey with ⟨_ | _, stack⟩
    · simp [hpub]
    · cases htop : trueOnTop stack with
      | false => simp [hpub, htop]
      | true =>
        cases hp2sh : isPayToScriptHash scriptPubKey with
        | false => simp [hpub, htop]
        | true =>
          cases hpush : isPushOnly scriptSig with
          | false => simp
          | true =>
            cases stackCopy with
            | nil => simp
            | cons pubKeySerialized rest =>
              rcases hev : evalScript E c rest pubKeySerialized with ⟨_ | _, stack'⟩ <;>
                simp [callEvalScript_bind, hpub, hev, htop]

/-- **An input that is good under flags is good under looser ones.** -/
theorem verifies_looser (h : Looser c.flags flags')
    (hver : verifies E c scriptSig scriptPubKey = true) :
    verifies E { c with flags := flags' } scriptSig scriptPubKey = true := by
  obtain ⟨stackCopy, stack, hsig, hpub, htop, hp2sh⟩ := verifies_eq_true.mp hver
  refine verifies_eq_true.mpr ⟨stackCopy, stack, evalScript_looser h hsig,
    evalScript_looser h hpub, htop, ?_⟩
  intro hhash
  obtain ⟨hpush, ser, rest, stack', rfl, hev, htop'⟩ := hp2sh hhash
  exact ⟨hpush, ser, rest, stack', rfl, evalScript_looser h hev, htop'⟩

variable {txHash : CTransaction → Uint256}

/-- The same for an input of a transaction. -/
theorem verifySignature_looser {txFrom txTo : CTransaction} {nIn flags : ℕ}
    (h : Looser flags flags') (hver : verifySignature E txHash txFrom txTo nIn flags = true) :
    verifySignature E txHash txFrom txTo nIn flags' = true := by
  unfold verifySignature at hver ⊢
  cases hin : txTo.vin[nIn]? with
  | none =>
    rw [hin] at hver
    cases hver
  | some txin =>
    simp only [hin] at hver ⊢
    cases hout : txFrom.vout[txin.prevout.n]? with
    | none =>
      rw [hout] at hver
      cases hver
    | some txout =>
      simp only [hout] at hver ⊢
      split_ifs at hver ⊢ with hhash
      exact verifies_looser (c := ⟨txTo, nIn, flags, 0⟩) h hver

theorem hash_of_verifySignature {txFrom txTo : CTransaction} {nIn flags : ℕ} {txin : CTxIn}
    (hin : txTo.vin[nIn]? = some txin) (h : verifySignature E txHash txFrom txTo nIn flags = true) :
    txin.prevout.hash = txHash txFrom := by
  simp only [verifySignature, hin] at h
  cases hout : txFrom.vout[txin.prevout.n]? with
  | none =>
    rw [hout] at h
    cases h
  | some txout =>
    simp only [hout] at h
    split_ifs at h with hhash
    exact not_not.mp hhash

/-! ### Connecting inputs under looser flags -/

/-- The chain whose signature checks run the scripts. -/
def Env.withScripts (S : ScriptEnv) (E : Env) : Env :=
  { E with verifySignature := Espers.verifySignature S E.txHash }

/-- The same previous transactions, with other records. -/
def SameTransactions (inputs inputs' : MapPrevTx) : Prop :=
  ∀ hash, (inputs'.lookup hash).map Prod.snd = (inputs.lookup hash).map Prod.snd

/-- The scripts of the inputs `vin`, the first of them input `i` of the transaction, are good. -/
def ScriptsGood (C : Env) (tx : CTransaction) (flags : ℕ) (inputs : MapPrevTx) (i : ℕ)
    (vin : List CTxIn) : Prop :=
  ∀ j txin, vin[j]? = some txin → ∀ txindex txPrev,
    inputs.lookup txin.prevout.hash = some (txindex, txPrev) →
    C.verifySignature txPrev tx (i + j) flags = true

section Connect

variable {S : ScriptEnv} {C : Env} {w : World} {tx : CTransaction} {inputs inputs' : MapPrevTx}
  {mapTestPool mapTestPool' : MapTxIndex} {posThisTx : CDiskTxPos} {pindexBlock : Option Uint256}
  {fBlock fMiner : Bool} {flags flags' i : ℕ} {vin : List CTxIn} {nBestHeight : ℤ}

variable {txPrev : CTransaction} {txindex : CTxIndex}

theorem SameTransactions.lookup (h : SameTransactions inputs inputs') {hash : Uint256}
    (hl : inputs'.lookup hash = some (txindex, txPrev)) :
    ∃ txindex', inputs.lookup hash = some (txindex', txPrev) := by
  have hsame := h hash
  rw [hl] at hsame
  obtain ⟨⟨txindex', t⟩, hr, rfl⟩ := map_eq_some_iff.mp hsame.symm
  exact ⟨txindex', hr⟩

theorem SameTransactions.symm (h : SameTransactions inputs inputs') :
    SameTransactions inputs' inputs :=
  fun hash => (h hash).symm

theorem SameTransactions.insert {hash : Uint256}
    (h : inputs.lookup hash = some (txindex, txPrev)) (txindex' : CTxIndex) :
    SameTransactions inputs (inputs.insert hash (txindex', txPrev)) := by
  intro hash'
  by_cases hh : hash' = hash
  · subst hh
    rw [lookup_insert, h]
    rfl
  · rw [lookup_insert_ne hh]

theorem ScriptsGood.of_same (h : ScriptsGood C tx flags inputs i vin)
    (hs : SameTransactions inputs inputs') : ScriptsGood C tx flags inputs' i vin := by
  intro j txin hj txindex txPrev hl
  obtain ⟨txindex', hl'⟩ := hs.lookup hl
  exact h j txin hj txindex' txPrev hl'

theorem ScriptsGood.tail {txin : CTxIn} (h : ScriptsGood C tx flags inputs i (txin :: vin)) :
    ScriptsGood C tx flags inputs (i + 1) vin := by
  intro j txin' hj txindex txPrev hl
  rw [show i + 1 + j = i + (j + 1) by omega]
  exact h (j + 1) txin' hj txindex txPrev hl

theorem ScriptsGood.head {txin : CTxIn} (h : ScriptsGood C tx flags inputs i (txin :: vin))
    (hl : inputs.lookup txin.prevout.hash = some (txindex, txPrev)) :
    C.verifySignature txPrev tx i flags = true := h 0 txin rfl txindex txPrev hl

theorem ScriptsGood.looser (hflags : Looser flags flags')
    (h : ScriptsGood (C.withScripts S) tx flags inputs i vin) :
    ScriptsGood (C.withScripts S) tx flags' inputs i vin := fun j txin hj txindex txPrev hl =>
  verifySignature_looser hflags (h j txin hj txindex txPrev hl)

theorem checkSignature_of_good (h : C.verifySignature txPrev tx i flags = true) :
    checkSignature C nBestHeight txPrev tx i fBlock flags = .ok () := by
  unfold checkSignature
  split_ifs <;> rfl

theorem good_of_checkSignature {u : Unit}
    (h : checkSignature C nBestHeight txPrev tx i false flags = .ok u) :
    C.verifySignature txPrev tx i flags = true := by
  unfold checkSignature at h
  rw [Bool.false_and, if_neg Bool.false_ne_true] at h
  by_contra hver
  split_ifs at h

/-- The second loop of `ConnectInputs` answers for the scripts. -/
theorem spendInputs_good (h : spendInputs C nBestHeight tx posThisTx false fMiner flags i vin
    inputs mapTestPool = .ok mapTestPool') : ScriptsGood C tx flags inputs i vin ∧
      ∀ txin ∈ vin, ∃ txindex txPrev, inputs.lookup txin.prevout.hash = some (txindex, txPrev) := by
  induction vin generalizing i inputs mapTestPool with
  | nil => exact ⟨nofun, nofun⟩
  | cons txin vin ih =>
    cases hl : inputs.lookup txin.prevout.hash with
    | none =>
      rw [spendInputs, hl] at h
      cases h
    | some r =>
      obtain ⟨txindex, txPrev⟩ := r
      simp only [spendInputs, hl, except_bind_eq_ok, rejectIf_eq_ok, exists_const] at h
      obtain ⟨-, _, hsig, h⟩ := h
      obtain ⟨hgood, hfound⟩ := ih h
      have hsame := (SameTransactions.insert hl { txindex with
        vSpent := txindex.vSpent.set txin.prevout.n posThisTx }).symm
      refine ⟨fun j txin' hj r t hl' => ?_, ?_⟩
      · cases j with
        | zero =>
          obtain rfl : txin = txin' := some.inj hj
          rw [hl, some.injEq, Prod.mk.injEq] at hl'
          exact hl'.2 ▸ good_of_checkSignature hsig
        | succ j =>
          rw [show i + (j + 1) = i + 1 + j by omega]
          exact hgood.of_same hsame j txin' hj r t hl'
      · rintro txin' (_ | ⟨_, hmem⟩)
        · exact ⟨txindex, txPrev, hl⟩
        · obtain ⟨r, t, hl'⟩ := hfound txin' hmem
          obtain ⟨r', hr'⟩ := hsame.symm.lookup hl'
          exact ⟨r', t, hr'⟩

theorem spendInputs_congr (h : ScriptsGood C tx flags inputs i vin)
    (h' : ScriptsGood C tx flags' inputs i vin) :
    spendInputs C nBestHeight tx posThisTx fBlock fMiner flags' i vin inputs mapTestPool =
      spendInputs C nBestHeight tx posThisTx fBlock fMiner flags i vin inputs mapTestPool := by
  induction vin generalizing i inputs mapTestPool with
  | nil => rfl
  | cons txin vin ih =>
    cases hl : inputs.lookup txin.prevout.hash with
    | none => simp only [spendInputs, hl]
    | some r =>
      obtain ⟨txindex, txPrev⟩ := r
      have hsame := SameTransactions.insert hl { txindex with
        vSpent := txindex.vSpent.set txin.prevout.n posThisTx }
      simp only [spendInputs, hl, checkSignature_of_good (h.head hl),
        checkSignature_of_good (h'.head hl), ih (h.tail.of_same hsame) (h'.tail.of_same hsame)]

/-! ### Errors that do not occur -/

/-- The function does not end with one of the errors. -/
def Avoids {α : Type} (errors : List Stop) (x : Except Stop α) : Prop :=
    ∀ e, x = .error e → e ∉ errors

namespace Avoids

variable {α β : Type} {errors : List Stop} {x : Except Stop α}

theorem ok (a : α) : Avoids errors (.ok a) := nofun

theorem error {e : Stop} (h : e ∉ errors) : Avoids errors (.error e : Except Stop α) := by
  rintro e' ⟨⟩
  exact h

theorem rejectIf {p : Prop} [Decidable p] {e : Stop} (h : e ∉ errors) :
    Avoids errors (Exec.rejectIf p e) := by
  unfold Exec.rejectIf
  split_ifs
  · exact error h
  · exact ok ()

theorem bind {f : α → Except Stop β} (hx : Avoids errors x)
    (hf : ∀ a, x = .ok a → Avoids errors (f a)) : Avoids errors (x >>= f) := by
  intro e h
  rcases except_bind_eq_error.1 h with h | ⟨a, ha, h⟩
  · exact hx e h
  · exact hf a ha e h

theorem report {own : Stop} (h : own ∉ errors) (hfalse : ∀ e ∈ errors, e.returnsFalse = true) :
    Avoids errors (x.mapError (Stop.report own)) := by
  cases x with
  | ok a => exact ok a
  | error e =>
    refine error fun hmem => ?_
    by_cases he : e.returnsFalse = true
    · rw [Stop.report, if_pos he] at hmem
      exact h hmem
    · rw [Stop.report, if_neg he] at hmem
      exact he (hfalse e hmem)

end Avoids

/-- The errors of a signature check. -/
def scriptErrors : List Stop :=
  [.error "ConnectInputs() : non-mandatory VerifySignature failed",
    .dos 100 "ConnectInputs() : VerifySignature failed"]

theorem sumValues_avoids {errors : List Stop} (h : ∀ e ∈ errors, e.returnsFalse = true) (a : ℤ)
    (vout : List CTxOut) : Avoids errors (sumValues a vout) := by
  induction vout generalizing a with
  | nil => exact .ok _
  | cons txout vout ih =>
    simp only [sumValues]
    split_ifs
    · exact .error fun hmem => false_ne_true (h _ hmem)
    · exact ih _

theorem checkInputs_avoids (m : BlockMap) (nValueIn : ℤ) :
    Avoids scriptErrors (checkInputs C m pindexBlock tx inputs nValueIn vin) := by
  induction vin generalizing nValueIn with
  | nil => exact .ok _
  | cons txin vin ih =>
    unfold checkInputs
    cases inputs.lookup txin.prevout.hash with
    | none => exact .error (by decide)
    | some r =>
      simp only
      cases r.2.vout[txin.prevout.n]? with
      | none => exact .error (by decide)
      | some txout =>
        refine .bind (.rejectIf (by decide)) fun _ _ => .bind (.rejectIf (by decide)) fun _ _ => ?_
        refine .bind (.rejectIf (by decide)) fun _ _ => .bind (.rejectIf (by decide)) fun _ _ => ?_
        exact .bind (.rejectIf (by decide)) fun _ _ => ih _

theorem spendInputs_avoids (h : ScriptsGood C tx flags inputs i vin) : Avoids scriptErrors
      (spendInputs C nBestHeight tx posThisTx fBlock fMiner flags i vin inputs mapTestPool) := by
  induction vin generalizing i inputs mapTestPool with
  | nil => exact .ok _
  | cons txin vin ih =>
    unfold spendInputs
    cases hl : inputs.lookup txin.prevout.hash with
    | none => exact .error (by decide)
    | some r =>
      refine .bind (.rejectIf ?_) fun _ _ => ?_
      · split_ifs <;> decide
      · simp only [checkSignature_of_good (h.head hl)]
        exact ih (h.tail.of_same (.insert hl _))

theorem checkFees_avoids (nValueIn : ℤ) : Avoids scriptErrors (checkFees tx nValueIn) := by
  unfold checkFees
  split_ifs
  · exact .ok _
  · refine .bind (sumValues_avoids (by decide) _ _) fun _ _ =>
      .bind (.rejectIf (by decide)) fun _ _ => ?_
    exact .bind (.rejectIf (by decide)) fun _ _ => .rejectIf (by decide)

/-- **With good scripts `ConnectInputs` does not fail for a script.** -/
theorem connectInputs_avoids (h : ScriptsGood C tx flags inputs 0 tx.vin) : Avoids scriptErrors
      (connectInputs C w tx inputs mapTestPool posThisTx pindexBlock fBlock fMiner flags) := by
  unfold connectInputs
  split_ifs
  · exact .ok _
  · refine .bind (checkInputs_avoids _ _) fun _ _ => .bind (spendInputs_avoids h) fun _ _ => ?_
    exact .bind (checkFees_avoids _) fun _ _ => .ok _

theorem connectInputs_good (hcb : tx.isCoinBase = false)
    (h : connectInputs C w tx inputs mapTestPool posThisTx pindexBlock false fMiner flags =
    .ok mapTestPool') : ScriptsGood C tx flags inputs 0 tx.vin ∧
      ∀ txin ∈ tx.vin, ∃ txindex txPrev, inputs.lookup txin.prevout.hash =
      some (txindex, txPrev) := by
  rw [connectInputs, if_neg (by rw [hcb]; exact false_ne_true)] at h
  obtain ⟨_, -, h⟩ := except_bind_eq_ok.1 h
  obtain ⟨_, h, -⟩ := except_bind_eq_ok.1 h
  exact spendInputs_good h

/-- **What `ConnectInputs` does under flags, it does under looser ones.** -/
theorem connectInputs_looser (hflags : Looser flags flags')
    (h : connectInputs (C.withScripts S) w tx inputs mapTestPool posThisTx pindexBlock false
    fMiner flags = .ok mapTestPool') :
    connectInputs (C.withScripts S) w tx inputs mapTestPool posThisTx pindexBlock false
      fMiner flags' = .ok mapTestPool' := by
  cases hcb : tx.isCoinBase with
  | true =>
    rw [connectInputs, if_pos hcb] at h ⊢
    exact h
  | false =>
    have hgood := (connectInputs_good hcb h).1
    rw [← h]
    simp only [connectInputs, spendInputs_congr hgood (hgood.looser hflags)]

end Connect

/-! ### The memory pool -/

section Pool

variable {S : ScriptEnv} {C : Env} {ctx : Ctx} {w : World} {tx : CTransaction} {fLimitFree : Bool}
  {pool pool' : CTxMemPool}

/-- A transaction that failed the second check of `AcceptToMemoryPool` only. -/
def mandatoryFailed : Stop := .error
  "AcceptToMemoryPool: : BUG! PLEASE REPORT THIS! ConnectInputs failed against MANDATORY but not STANDARD flags"

theorem sumInputs_avoids (inputs : MapPrevTx) (nResult : ℤ) (vin : List CTxIn) :
    Avoids [mandatoryFailed] (sumInputs inputs nResult vin) := by
  induction vin generalizing nResult with
  | nil => exact .ok _
  | cons txin vin ih =>
    refine .bind ?_ fun _ _ => ih _
    unfold getOutputFor
    cases inputs.lookup txin.prevout.hash with
    | none => exact .error (by decide)
    | some r =>
      simp only
      cases r.2.vout[txin.prevout.n]? with
      | none => exact .error (by decide)
      | some txout => exact .ok _

/-- **A transaction does not fail the second check only.** -/
theorem checkAccept_avoids (S : ScriptEnv) (C : Env) (ctx : Ctx) (w : World) (tx : CTransaction)
    (fLimitFree : Bool) :
    Avoids [mandatoryFailed] (checkAccept (C.withScripts S) ctx w tx fLimitFree) := by
  have hfalse : ∀ e ∈ [mandatoryFailed], e.returnsFalse = true := by decide
  refine .bind (.report (by decide) hfalse) fun _ _ => .bind (.rejectIf (by decide)) fun _ _ => ?_
  refine .bind (.rejectIf (by decide)) fun _ _ => .bind (.rejectIf (by decide)) fun _ _ => ?_
  refine .bind (.rejectIf (by decide)) fun _ _ => .bind (.rejectIf (by decide)) fun _ _ => ?_
  refine .bind (.rejectIf (by decide)) fun _ _ => .bind ?_ fun mapInputs _ => ?_
  · cases fetchInputs w ctx w.txdb.fresh ∅ false false tx with
    | ok _ => exact .ok _
    | error e => cases e <;> exact .error (by simp [mandatoryFailed])
  refine .bind (.rejectIf (by decide)) fun _ _ => .bind (.rejectIf (by decide)) fun _ _ => ?_
  refine .bind ?_ fun nValueIn _ => .bind (sumValues_avoids hfalse _ _) fun nValueOut _ => ?_
  · unfold getValueMapIn
    split_ifs
    · exact .ok _
    · exact sumInputs_avoids _ _ _
  refine .bind (.bind (.rejectIf (by decide)) fun _ _ => .rejectIf (by decide)) fun _ _ => ?_
  refine .bind (.report (by decide) hfalse) fun m hm => ?_
  -- the first check was passed
  rw [connectInputs_looser looser_mandatory (except_mapError_eq_ok.mp hm)]
  exact .ok _

theorem checkAccept_good {u : Unit} (h : checkAccept C ctx w tx fLimitFree = .ok u) :
    ∃ mapInputs, ScriptsGood C tx standardScriptVerifyFlags mapInputs 0 tx.vin ∧
      ∀ txin ∈ tx.vin, ∃ txindex txPrev, mapInputs.lookup txin.prevout.hash =
      some (txindex, txPrev) := by
  simp only [checkAccept, except_bind_eq_ok, except_mapError_eq_ok, rejectIf_eq_ok,
    exists_const] at h
  obtain ⟨_, -, hcb, -, -, -, -, -, mapInputs, -, -, -, _, -, _, -, _, -, m, hconnect, -⟩ := h
  exact ⟨mapInputs, connectInputs_good (not_eq_true _ ▸ hcb) hconnect⟩

/-- Removing a transaction adds none. -/
theorem remove_mapTx {P : CTransaction → Prop} {fuel : ℕ} {fRecursive : Bool}
    (hP : ∀ hash t, pool.mapTx.lookup hash = some t → P t)
    (h : pool.remove C fuel fRecursive tx = .ok pool') : ∀ hash t, pool'.mapTx.lookup hash =
    some t → P t := by
  induction fuel generalizing fRecursive tx pool pool' with
  | zero => cases h
  | succ fuel ih =>
    rw [CTxMemPool.remove] at h
    by_cases hc : (!pool.contains (C.txHash tx)) = true
    · rw [if_pos hc] at h
      cases h
      exact hP
    · rw [if_neg hc] at h
      obtain ⟨pool1, hfold, h⟩ := except_bind_eq_ok.1 h
      cases h
      have hkeeps := foldlM_keeps
        (P := fun pool : CTxMemPool => ∀ hash t, pool.mapTx.lookup hash = some t → P t) ?_ hP hfold
      · exact fun hash t ht => hkeeps hash t (Store.lookup_of_erase ht)
      · intro pool i pool' hP hstep
        split at hstep
        · cases hstep
          exact hP
        · split at hstep
          · cases hstep
          · exact ih hP hstep

/-- What holds of every transaction that is accepted holds of every transaction of the pool. -/
theorem PoolOp.run_mapTx {P : CTransaction → Prop} {ops : List PoolOp}
    (haccept : ∀ ctx w tx fLimitFree, checkAccept C ctx w tx fLimitFree = .ok () → P tx)
    (h : PoolOp.run C .empty ops = .ok pool) : ∀ hash t, pool.mapTx.lookup hash = some t → P t := by
  refine foldlM_keeps (P := fun pool : CTxMemPool => ∀ hash t, pool.mapTx.lookup hash = some t →
    P t) ?_ (fun hash t ht => by cases ht) h
  intro pool op pool' hP hop
  cases op with
  | accept ctx w tx fLimitFree =>
    cases hx : checkAccept C ctx { w with mempool := pool } tx fLimitFree with
    | error e =>
      simp only [PoolOp.exec, hx] at hop
      cases hop
      exact hP
    | ok u =>
      simp only [PoolOp.exec, hx] at hop
      cases hop
      intro hash t ht
      by_cases hh : hash = C.txHash tx
      · subst hh
        rw [CTxMemPool.addUnchecked, lookup_insert, some.injEq] at ht
        exact ht ▸ haccept _ _ _ _ hx
      · rw [CTxMemPool.addUnchecked, lookup_insert_ne hh] at ht
        exact hP hash t ht
  | remove tx fRecursive => exact remove_mapTx hP hop
  | removeConflicts tx =>
    refine foldlM_keeps (P := fun pool : CTxMemPool => ∀ hash t, pool.mapTx.lookup hash = some t →
      P t) ?_ hP hop
    intro pool txin pool' hP hstep
    split at hstep
    · cases hstep
      exact hP
    · split at hstep
      · cases hstep
      · split_ifs at hstep
        · exact remove_mapTx hP hstep
        · cases hstep
          exact hP
  | clear =>
    cases hop
    intro hash t ht
    cases ht

end Pool

/-- **Policy acceptance implies consensus acceptance.**  An input that is good under the standard
flags is good under the mandatory ones and under those of a block of protocol v3.
`AcceptToMemoryPool` never finds that a transaction failed against the mandatory but not the
standard flags.  And in every state of the pool, a block of protocol v3 that spends the same
previous transactions does not fail for the script of a transaction of the pool, at whatever height
it is connected. -/
theorem policy_implies_consensus (S : ScriptEnv) (E : Env) :
    (∀ txTo nIn nHashType scriptSig scriptPubKey,
      verifies S ⟨txTo, nIn, standardScriptVerifyFlags, nHashType⟩ scriptSig scriptPubKey = true →
        verifies S ⟨txTo, nIn, mandatoryScriptVerifyFlags, nHashType⟩ scriptSig scriptPubKey =
        true ∧ ∀ nTime : ℕ, isProtocolV3 E nTime = true →
          verifies S ⟨txTo, nIn, blockFlags E nTime, nHashType⟩ scriptSig scriptPubKey = true) ∧
    (∀ ctx w tx fLimitFree,
      checkAccept (E.withScripts S) ctx w tx fLimitFree ≠ .error mandatoryFailed) ∧
    ∀ ops pool, PoolOp.run (E.withScripts S) .empty ops = .ok pool →
      ∀ hash tx, pool.mapTx.lookup hash = some tx → ∃ mapInputs : MapPrevTx,
        (∀ txin ∈ tx.vin, ∃ txindex txPrev,
          mapInputs.lookup txin.prevout.hash = some (txindex, txPrev) ∧ E.txHash txPrev =
          txin.prevout.hash) ∧
        ∀ w inputs mapTestPool posThisTx pindexBlock fMiner (nTime : ℕ),
          isProtocolV3 E nTime = true → SameTransactions mapInputs inputs → ∀ e ∈ scriptErrors,
            connectInputs (E.withScripts S) w tx inputs mapTestPool posThisTx
            pindexBlock true fMiner
              (blockFlags E nTime) ≠ .error e := by
  refine ⟨fun txTo nIn nHashType scriptSig scriptPubKey h => ⟨?_, fun nTime hV3 => ?_⟩, ?_, ?_⟩
  · exact verifies_looser (c := ⟨txTo, nIn, _, nHashType⟩) looser_mandatory h
  · exact verifies_looser (c := ⟨txTo, nIn, _, nHashType⟩) (looser_blockFlags hV3) h
  · intro ctx w tx fLimitFree herr
    exact checkAccept_avoids S E ctx w tx fLimitFree _ herr (List.mem_singleton_self _)
  · intro ops pool hrun
    refine PoolOp.run_mapTx (fun ctx w tx fLimitFree hok => ?_) hrun
    obtain ⟨mapInputs, hgood, hfound⟩ := checkAccept_good hok
    refine ⟨mapInputs, fun txin hmem => ?_, ?_⟩
    · obtain ⟨txindex, txPrev, hl⟩ := hfound txin hmem
      obtain ⟨j, hj⟩ := List.mem_iff_getElem?.mp hmem
      have hver : verifySignature S E.txHash txPrev tx j standardScriptVerifyFlags = true := by
        have := hgood j txin hj txindex txPrev hl
        rwa [Nat.zero_add] at this
      exact ⟨txindex, txPrev, hl, (hash_of_verifySignature hj hver).symm⟩
    · intro w inputs mapTestPool posThisTx pindexBlock fMiner nTime hV3 hsame e he herr
      exact connectInputs_avoids ((hgood.looser (looser_blockFlags hV3)).of_same hsame) e herr he

end Espers
