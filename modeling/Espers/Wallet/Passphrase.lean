import Espers.Wallet.CryptoKeyStore

/-!
# Changing the passphrase

The master key is kept encrypted under the passphrase, in one record or in several.  `Unlock` tries
every record; `ChangeWalletPassphrase` locks the wallet, and gives up at the first record that does
not decrypt.

* `unlockLoop_cons`, `changeLoop_cons` : what the two loops do with a record, by what becomes of it.
* `changePassphrase_atomic_iff` : **a change is atomic exactly if** the records before the one that
  opens decrypt too, and a wallet that does not unlock was locked.
-/

namespace Espers

open Exec List Nat Bool Function

/-- `CMasterKey`. -/
structure CMasterKey where
  vchCryptedKey : List UInt8
  vchSalt : List UInt8
  nDerivationMethod : ℕ
  nDeriveIterations : ℕ
  vchOtherDerivationParameters : List UInt8

/-- What the passphrase is used with. -/
structure PassphraseEnv extends KeyStoreEnv where
  /-- The key and the initialization vector of `EVP_BytesToKey`, by method, for a passphrase, a salt
  and a number of rounds. -/
  deriveKey : ℕ → List UInt8 → List UInt8 → ℕ → List UInt8 × Uint256
  length_deriveKey : ∀ nDerivationMethod strKeyData chSalt nRounds,
    (deriveKey nDerivationMethod strKeyData chSalt nRounds).1.length = walletCryptoKeySize
  /-- `nDeriveIterations * (100 / elapsed)`, with the time that the derivation took. -/
  scaled : ℕ → ℕ
  /-- `(nDeriveIterations + nDeriveIterations * 100 / elapsed) / 2`, with the second time. -/
  averaged : ℕ → ℕ
  /-- The wallet database can be written. -/
  writes : Bool

/-- Decryption undoes encryption with a key of the right size. -/
def DecryptsEncrypted (C : Cipher) : Prop :=
  ∀ key iv data, key.length = walletCryptoKeySize →
    C.decrypt key iv (C.encrypt key iv data) = some data

/-- A wallet: its key store, `mapMasterKeys`, and the records of the database. -/
structure MasterKeyWallet where
  keyStore : CryptoKeyStore
  mapMasterKeys : List (ℕ × CMasterKey)
  database : ℕ → Option CMasterKey

/-- `WALLET_CRYPTO_SALT_SIZE`. -/
def walletCryptoSaltSize : ℕ := 8

section Operations

variable (E : PassphraseEnv)

/-- `SetKeyFromPassphrase`. -/
def setKeyFromPassphrase (strKeyData chSalt : List UInt8) (nRounds nDerivationMethod : ℕ) :
    Option (List UInt8 × Uint256) :=
  if nRounds < 1 ∨ chSalt.length ≠ walletCryptoSaltSize then none
  else if nDerivationMethod = 0 ∨ nDerivationMethod = 1 then
    some (E.deriveKey nDerivationMethod strKeyData chSalt nRounds)
  else none

/-- The key of a record for a passphrase. -/
def CMasterKey.keyFor (strPassphrase : List UInt8) (r : CMasterKey) :
    Option (List UInt8 × Uint256) :=
  setKeyFromPassphrase E strPassphrase r.vchSalt r.nDeriveIterations r.nDerivationMethod

/-- The count of iterations is measured twice, and is 25000 at least. -/
def CMasterKey.measured (r : CMasterKey) : CMasterKey :=
  { r with nDeriveIterations := max 25000 (E.averaged (E.scaled r.nDeriveIterations)) }

/-- An operation of the key store on the wallet. -/
def onKeyStore {α : Type} (x : EStateM Stop CryptoKeyStore α) : EStateM Stop MasterKeyWallet α :=
  focus MasterKeyWallet.keyStore (fun keyStore w => { w with keyStore }) x

/-- The loop of `CWallet::Unlock`. -/
def unlockLoop (strPassphrase : List UInt8) :
    List (ℕ × CMasterKey) → EStateM Stop MasterKeyWallet Bool
  | [] => return false
  | (_, r) :: mapMasterKeys =>
    match r.keyFor E strPassphrase with
    | none => return false
    | some (chKey, chIV) =>
      match E.decrypt chKey chIV r.vchCryptedKey with
      -- try another master key
      | none => unlockLoop strPassphrase mapMasterKeys
      | some vMasterKey => do
        if ← onKeyStore (unlockKeyStore E.toKeyStoreEnv vMasterKey) then return true
        else unlockLoop strPassphrase mapMasterKeys

/-- `CWallet::Unlock`. -/
def unlockWallet (strPassphrase : List UInt8) : EStateM Stop MasterKeyWallet Bool := do
  let w ← get
  unlockLoop E strPassphrase w.mapMasterKeys

/-- The record `i` holds the master key under the new passphrase from now on. -/
def reencrypt (strNew : List UInt8) (i id : ℕ) (r : CMasterKey) (vMasterKey : List UInt8) :
    EStateM Stop MasterKeyWallet Bool := do
  let r := r.measured E
  modify fun w => { w with mapMasterKeys := w.mapMasterKeys.set i (id, r) }
  match r.keyFor E strNew with
  | none => return false
  | some (chKey, chIV) =>
    let r := { r with vchCryptedKey := E.encrypt chKey chIV vMasterKey }
    modify fun w => { w with mapMasterKeys := w.mapMasterKeys.set i (id, r) }
    modify fun w =>
      if E.writes then { w with database := update w.database id (some r) } else w
    return true

/-- The loop of `ChangeWalletPassphrase`, from the record `i` on. -/
def changeLoop (strOld strNew : List UInt8) (fWasLocked : Bool) :
    ℕ → List (ℕ × CMasterKey) → EStateM Stop MasterKeyWallet Bool
  | _, [] => return false
  | i, (id, r) :: mapMasterKeys =>
    match r.keyFor E strOld with
    | none => return false
    | some (chKey, chIV) =>
      match E.decrypt chKey chIV r.vchCryptedKey with
      | none => return false
      | some vMasterKey => do
        if ← onKeyStore (unlockKeyStore E.toKeyStoreEnv vMasterKey) then
          if ← reencrypt E strNew i id r vMasterKey then do
            if fWasLocked then
              let _ ← onKeyStore lockKeyStore
            return true
          else return false
        else changeLoop strOld strNew fWasLocked (i + 1) mapMasterKeys

/-- `ChangeWalletPassphrase`. -/
def changeWalletPassphrase (strOld strNew : List UInt8) : EStateM Stop MasterKeyWallet Bool := do
  let w ← get
  let _ ← onKeyStore lockKeyStore
  changeLoop E strOld strNew w.keyStore.isLocked 0 w.mapMasterKeys

/-! ### What becomes of a record -/

/-- The key store unlocks with a master key: the key of the first entry must match. -/
def CryptoKeyStore.accepts (s : CryptoKeyStore) (vMasterKeyIn : List UInt8) : Except Stop Bool :=
  match s.mapCryptedKeys.toList with
  | [] => .ok true
  | (_, vchPubKey, vchCryptedSecret) :: _ =>
    opensKey E.toKeyStoreEnv vMasterKeyIn vchPubKey vchCryptedSecret

/-- What becomes of a record when a passphrase is tried. -/
inductive Tried where
  /-- No key is derived. -/
  | underived
  /-- The record does not decrypt. -/
  | undecrypted
  /-- What it decrypts to is not the master key of the key store. -/
  | rejected
  | opened (vMasterKey : List UInt8)
  /-- The key store stops. -/
  | stopped (e : Stop)

/-- What becomes of a record. -/
def CMasterKey.tried (s : CryptoKeyStore) (strPassphrase : List UInt8) (r : CMasterKey) : Tried :=
  match r.keyFor E strPassphrase with
  | none => .underived
  | some (chKey, chIV) =>
    match E.decrypt chKey chIV r.vchCryptedKey with
    | none => .undecrypted
    | some vMasterKey =>
      match s.accepts E vMasterKey with
      | .ok true => .opened vMasterKey
      | .ok false => .rejected
      | .error e => .stopped e

end Operations

/-- `Unlock` passes over a record. -/
def Tried.Passed : Tried → Prop
  | .undecrypted | .rejected => True
  | _ => False

/-- Neither `Unlock` nor the change of the passphrase ends at a record. -/
def Tried.Rejected : Tried → Prop
  | .rejected => True
  | _ => False

namespace MasterKeyWallet

/-- The wallet with a master key; it is locked if that is empty. -/
def withKey (vMasterKey : List UInt8) (w : MasterKeyWallet) : MasterKeyWallet :=
  { w with keyStore := { w.keyStore with vMasterKey } }

/-- What becomes of an entry of `mapMasterKeys`. -/
def tried (E : PassphraseEnv) (w : MasterKeyWallet) (strPassphrase : List UInt8)
    (e : ℕ × CMasterKey) : Tried := e.2.tried E w.keyStore strPassphrase

/-- `Unlock` returns true. -/
def Unlocks (E : PassphraseEnv) (strPassphrase : List UInt8) (w : MasterKeyWallet) : Prop :=
  ∃ w', unlockWallet E strPassphrase w = .ok true w'

end MasterKeyWallet

/-- A change of the passphrase is atomic. -/
structure ChangesAtomically (E : PassphraseEnv) (strOld strNew : List UInt8) (w : MasterKeyWallet) :
    Prop where
  unchanged : ∀ w', changeWalletPassphrase E strOld strNew w = .ok false w' → w' = w
  relocked : ∀ w', changeWalletPassphrase E strOld strNew w = .ok true w' →
    w'.keyStore.isLocked = w.keyStore.isLocked
  opens : ∀ w', changeWalletPassphrase E strOld strNew w = .ok true w' → w'.Unlocks E strNew
  complete : w.Unlocks E strOld → ∃ w', changeWalletPassphrase E strOld strNew w = .ok true w'

/-- An element is the first of a list without a property. -/
structure FirstWithout {α : Type} (p : α → Prop) (l before : List α) (a : α) (after : List α) :
    Prop where
  eq : l = before ++ a :: after
  before : ∀ b ∈ before, p b
  without : ¬p a

/-- The wallets and passphrases for which a change is atomic. -/
structure ChangeFits (E : PassphraseEnv) (strOld strNew : List UInt8) (w : MasterKeyWallet) :
    Prop where
  /-- The records before the one that opens decrypt under the old passphrase and do not stop under
  the new one. -/
  opened : ∀ before e after vMasterKey,
    FirstWithout (fun e => (w.tried E strOld e).Passed) w.mapMasterKeys before e after →
    w.tried E strOld e = .opened vMasterKey → (∀ b ∈ before, (w.tried E strOld b).Rejected) ∧
      (w.keyStore.isLocked = true ∨ vMasterKey ≠ []) ∧
      ∀ before' b after' stop,
        FirstWithout (fun e => (w.tried E strNew e).Passed) before before' b after' →
        w.tried E strNew b ≠ .stopped stop
  /-- Without a record that opens the wallet is locked, or the change stops as well. -/
  unopened : ¬w.Unlocks E strOld → w.keyStore.isLocked = true ∨ ∃ before e after stop,
    FirstWithout (fun e => (w.tried E strOld e).Rejected) w.mapMasterKeys before e after ∧
    w.tried E strOld e = .stopped stop

section FirstWithout

variable {α : Type} {p q : α → Prop} {l before before' after after' : List α} {a a' : α}

theorem forall_or_exists_firstWithout (p : α → Prop) (l : List α) :
    (∀ a ∈ l, p a) ∨ ∃ before a after, FirstWithout p l before a after := by
  induction l with
  | nil => exact .inl fun _ h => absurd h not_mem_nil
  | cons a l ih =>
    by_cases ha : p a
    · rcases ih with hall | ⟨before, b, after, rfl, hbefore, hb⟩
      · exact .inl (forall_mem_cons.2 ⟨ha, hall⟩)
      · exact .inr ⟨a :: before, b, after, rfl, forall_mem_cons.2 ⟨ha, hbefore⟩, hb⟩
    · exact .inr ⟨[], a, l, rfl, fun _ h => absurd h not_mem_nil, ha⟩

theorem FirstWithout.unique (h : FirstWithout p l before a after)
    (h' : FirstWithout p l before' a' after') : before' = before ∧ a' = a ∧ after' = after := by
  obtain ⟨rfl, hbefore, ha⟩ := h
  obtain ⟨heq, hbefore', ha'⟩ := h'
  induction before generalizing before' with
  | nil =>
    cases before' with
    | nil =>
      obtain ⟨rfl, rfl⟩ := cons.inj heq
      exact ⟨rfl, rfl, rfl⟩
    | cons b before' =>
      obtain ⟨rfl, -⟩ := cons.inj heq
      exact absurd (hbefore' _ mem_cons_self) ha
  | cons b before ih =>
    cases before' with
    | nil =>
      obtain ⟨rfl, -⟩ := cons.inj heq
      exact absurd (hbefore _ mem_cons_self) ha'
    | cons b' before' =>
      obtain ⟨rfl, htail⟩ := cons.inj heq
      obtain ⟨rfl, rfl, rfl⟩ := ih (fun c hc => hbefore c (.tail _ hc)) htail
        fun c hc => hbefore' c (.tail _ hc)
      exact ⟨rfl, rfl, rfl⟩

theorem FirstWithout.mono (hpq : ∀ a, p a → q a) (h : FirstWithout p l before a after)
    (ha : ¬q a) : FirstWithout q l before a after := ⟨h.eq, fun b hb => hpq b (h.before b hb), ha⟩

end FirstWithout

/-! ### The loops -/

variable {E : PassphraseEnv} {w w' : MasterKeyWallet} {strOld strNew strPassphrase : List UInt8}

section

variable (hcrypted : w.keyStore.fUseCrypto = true)
include hcrypted

theorem unlockKeyStore_eq (vMasterKeyIn : List UInt8) :
    onKeyStore (unlockKeyStore E.toKeyStoreEnv vMasterKeyIn) w =
      match w.keyStore.accepts E vMasterKeyIn with
      | .ok true => .ok true (w.withKey vMasterKeyIn)
      | .ok false => .ok false w
      | .error e => .error e w := by
  rw [onKeyStore, focus, unlockKeyStore, bind_of_ok (setCrypted_of_crypted hcrypted),
    if_neg (show ¬(!true) = true from false_ne_true), get_bind_apply,
    CryptoKeyStore.accepts]
  cases w.keyStore.mapCryptedKeys.toList with
  | nil => rfl
  | cons e l =>
    obtain ⟨id, vchPubKey, vchCryptedSecret⟩ := e
    dsimp only
    cases hopens : opensKey E.toKeyStoreEnv vMasterKeyIn vchPubKey vchCryptedSecret with
    | error e => rfl
    | ok b => cases b <;> rfl

/-- One record of `Unlock`. -/
theorem unlockLoop_cons (e : ℕ × CMasterKey) (mapMasterKeys : List (ℕ × CMasterKey)) :
    unlockLoop E strPassphrase (e :: mapMasterKeys) w = match w.tried E strPassphrase e with
      | .underived => .ok false w
      | .undecrypted | .rejected => unlockLoop E strPassphrase mapMasterKeys w
      | .opened vMasterKey => .ok true (w.withKey vMasterKey)
      | .stopped stop => .error stop w := by
  obtain ⟨id, r⟩ := e
  rw [unlockLoop, MasterKeyWallet.tried, CMasterKey.tried]
  cases r.keyFor E strPassphrase with
  | none => rfl
  | some key =>
    obtain ⟨chKey, chIV⟩ := key
    dsimp only
    cases E.decrypt chKey chIV r.vchCryptedKey with
    | none => rfl
    | some vMasterKey =>
      dsimp only
      rw [bind_apply, unlockKeyStore_eq hcrypted]
      cases w.keyStore.accepts E vMasterKey with
      | error stop => rfl
      | ok b => cases b <;> rfl

theorem unlockLoop_append {before : List (ℕ × CMasterKey)}
    (h : ∀ b ∈ before, (w.tried E strPassphrase b).Passed) (mapMasterKeys : List (ℕ × CMasterKey)) :
    unlockLoop E strPassphrase (before ++ mapMasterKeys) w =
      unlockLoop E strPassphrase mapMasterKeys w := by
  induction before with
  | nil => rfl
  | cons b before ih =>
    have hb := h b mem_cons_self
    rw [cons_append, unlockLoop_cons hcrypted, ← ih fun c hc => h c (.tail _ hc)]
    cases htried : w.tried E strPassphrase b with
    | undecrypted => rfl
    | rejected => rfl
    | underived => rw [htried] at hb; exact hb.elim
    | opened vMasterKey => rw [htried] at hb; exact hb.elim
    | stopped stop => rw [htried] at hb; exact hb.elim

/-- `Unlock` returns true if the first record that it does not pass over opens. -/
theorem unlocks_iff : w.Unlocks E strPassphrase ↔ ∃ before e after vMasterKey,
      FirstWithout (fun e => (w.tried E strPassphrase e).Passed) w.mapMasterKeys before e after ∧
      w.tried E strPassphrase e = .opened vMasterKey := by
  have hunlock : unlockWallet E strPassphrase w =
    unlockLoop E strPassphrase w.mapMasterKeys w := rfl
  rw [MasterKeyWallet.Unlocks, hunlock]
  rcases forall_or_exists_firstWithout (fun e => (w.tried E strPassphrase e).Passed)
    w.mapMasterKeys with hall | ⟨before, e, after, hfirst⟩
  · have hrun := unlockLoop_append hcrypted hall []
    rw [append_nil] at hrun
    rw [hrun]
    constructor
    · rintro ⟨w', h⟩
      cases h
    · rintro ⟨before, e, after, -, hfirst, -⟩
      exact absurd (hall e (hfirst.eq ▸ mem_append_right _ mem_cons_self)) hfirst.without
  · have hrun := (unlockLoop_append hcrypted hfirst.before (e :: after)).trans
      (unlockLoop_cons hcrypted e after)
    rw [← hfirst.eq] at hrun
    constructor
    · rintro ⟨w', h⟩
      have hpassed := hfirst.without
      rw [hrun] at h
      cases htried : w.tried E strPassphrase e with
      | opened vMasterKey => exact ⟨before, e, after, vMasterKey, hfirst, htried⟩
      | underived => rw [htried] at h; cases h
      | undecrypted => rw [htried] at hpassed; exact absurd trivial hpassed
      | rejected => rw [htried] at hpassed; exact absurd trivial hpassed
      | stopped stop => rw [htried] at h; cases h
    · rintro ⟨before', e', after', vMasterKey, hfirst', htried⟩
      obtain ⟨-, rfl, -⟩ := hfirst.unique hfirst'
      rw [hrun, htried]
      exact ⟨_, rfl⟩

end

/-! ### The change -/

/-- A record that decrypted is encrypted again. -/
def CMasterKey.sealed (E : PassphraseEnv) (strNew vMasterKey : List UInt8) (r : CMasterKey) :
    CMasterKey :=
  let r := r.measured E
  let key := E.deriveKey r.nDerivationMethod strNew r.vchSalt r.nDeriveIterations
  { r with vchCryptedKey := E.encrypt key.1 key.2 vMasterKey }

/-- The wallet with a record that is encrypted again. -/
def MasterKeyWallet.withRecord (E : PassphraseEnv) (w : MasterKeyWallet) (i id : ℕ)
    (r : CMasterKey) : MasterKeyWallet :=
  { w with
    mapMasterKeys := w.mapMasterKeys.set i (id, r)
    database := if E.writes then update w.database id (some r) else w.database }

/-- A key can be derived for a record. -/
structure CMasterKey.Derives (r : CMasterKey) : Prop where
  rounds : 1 ≤ r.nDeriveIterations
  salt : r.vchSalt.length = walletCryptoSaltSize
  method : r.nDerivationMethod = 0 ∨ r.nDerivationMethod = 1

variable {r : CMasterKey}

theorem CMasterKey.keyFor_eq (h : r.Derives) (strPassphrase : List UInt8) :
    r.keyFor E strPassphrase =
      some (E.deriveKey r.nDerivationMethod strPassphrase r.vchSalt r.nDeriveIterations) := by
  have hrounds : ¬(r.nDeriveIterations < 1 ∨ r.vchSalt.length ≠ walletCryptoSaltSize) :=
    not_or.2 ⟨not_lt.2 h.rounds, not_not.2 h.salt⟩
  rw [keyFor, setKeyFromPassphrase, if_neg hrounds, if_pos h.method]

theorem CMasterKey.derives_of_keyFor {key : List UInt8 × Uint256}
    (h : r.keyFor E strPassphrase = some key) : r.Derives := by
  rw [keyFor, setKeyFromPassphrase] at h
  split_ifs at h with hbad hmethod
  obtain ⟨hrounds, hsalt⟩ := not_or.1 hbad
  exact ⟨not_lt.1 hrounds, not_not.1 hsalt, hmethod⟩

theorem CMasterKey.Derives.measured (h : r.Derives) : (r.measured E).Derives where
  rounds := le_trans (by decide) (le_max_left 25000 _)
  salt := h.salt
  method := h.method

variable {e : ℕ × CMasterKey}

theorem derives_of_tried (h : w.tried E strPassphrase e ≠ .underived) : e.2.Derives := by
  rw [MasterKeyWallet.tried, CMasterKey.tried] at h
  cases hkey : e.2.keyFor E strPassphrase with
  | none => rw [hkey] at h; exact absurd rfl h
  | some key => exact CMasterKey.derives_of_keyFor hkey

theorem reencrypt_eq (h : r.Derives) (i id : ℕ) (vMasterKey : List UInt8) :
    reencrypt E strNew i id r vMasterKey w =
      .ok true (w.withRecord E i id (r.sealed E strNew vMasterKey)) := by
  rw [reencrypt, modify_bind_apply, CMasterKey.keyFor_eq h.measured]
  dsimp only
  rw [modify_bind_apply, modify_bind_apply, MasterKeyWallet.withRecord]
  rw [set_set]
  cases E.writes <;> rfl

theorem lockKeyStore_eq (hcrypted : w.keyStore.fUseCrypto = true) :
    onKeyStore lockKeyStore w = .ok true (w.withKey []) := by
  rw [onKeyStore, focus, lockKeyStore, bind_of_ok (setCrypted_of_crypted hcrypted)]
  rfl

/-- One record of `ChangeWalletPassphrase`. -/
theorem changeLoop_cons (hcrypted : w.keyStore.fUseCrypto = true) (fWasLocked : Bool) (i : ℕ)
    (e : ℕ × CMasterKey) (mapMasterKeys : List (ℕ × CMasterKey)) :
    changeLoop E strOld strNew fWasLocked i (e :: mapMasterKeys) w = match w.tried E strOld e with
      | .underived | .undecrypted => .ok false w
      | .rejected => changeLoop E strOld strNew fWasLocked (i + 1) mapMasterKeys w
      | .opened vMasterKey => .ok true
          ((w.withRecord E i e.1 (e.2.sealed E strNew vMasterKey)).withKey
            (if fWasLocked then [] else vMasterKey))
      | .stopped stop => .error stop w := by
  obtain ⟨id, r⟩ := e
  rw [changeLoop, MasterKeyWallet.tried, CMasterKey.tried]
  cases hkey : r.keyFor E strOld with
  | none => rfl
  | some key =>
    obtain ⟨chKey, chIV⟩ := key
    dsimp only
    cases E.decrypt chKey chIV r.vchCryptedKey with
    | none => rfl
    | some vMasterKey =>
      dsimp only
      rw [bind_apply, unlockKeyStore_eq hcrypted]
      cases w.keyStore.accepts E vMasterKey with
      | error stop => rfl
      | ok b =>
        cases b with
        | false => rfl
        | true =>
          dsimp only
          rw [if_pos rfl, bind_of_ok (reencrypt_eq (CMasterKey.derives_of_keyFor hkey) _ _ _),
            if_pos rfl]
          cases fWasLocked with
          | false => rfl
          | true =>
            have hlock := lockKeyStore_eq (w := (w.withKey vMasterKey).withRecord E i id
              (r.sealed E strNew vMasterKey)) hcrypted
            exact bind_of_ok hlock

theorem Tried.Rejected.eq {t : Tried} (h : t.Rejected) : t = .rejected := by
  cases t with
  | rejected => rfl
  | underived => exact h.elim
  | undecrypted => exact h.elim
  | opened vMasterKey => exact h.elim
  | stopped stop => exact h.elim

theorem Tried.Rejected.passed {t : Tried} (h : t.Rejected) : t.Passed := h.eq ▸ trivial

variable {before after : List (ℕ × CMasterKey)}

section

variable (hcrypted : w.keyStore.fUseCrypto = true)
include hcrypted

theorem changeLoop_append (fWasLocked : Bool) (i : ℕ)
    (h : ∀ b ∈ before, (w.tried E strOld b).Rejected)
    (mapMasterKeys : List (ℕ × CMasterKey)) :
    changeLoop E strOld strNew fWasLocked i (before ++ mapMasterKeys) w =
      changeLoop E strOld strNew fWasLocked (i + before.length) mapMasterKeys w := by
  induction before generalizing i with
  | nil => rfl
  | cons b before ih =>
    rw [cons_append, changeLoop_cons hcrypted, (h b mem_cons_self).eq]
    rw [ih (i + 1) fun c hc => h c (.tail _ hc), length_cons, add_right_comm, add_assoc]

theorem changeWalletPassphrase_eq : changeWalletPassphrase E strOld strNew w =
      changeLoop E strOld strNew w.keyStore.isLocked 0 w.mapMasterKeys (w.withKey []) := by
  exact bind_of_ok (lockKeyStore_eq hcrypted)

theorem change_of_all
    (h : ∀ e ∈ w.mapMasterKeys, (w.tried E strOld e).Rejected) :
    changeWalletPassphrase E strOld strNew w = .ok false (w.withKey []) := by
  have hrun : changeLoop E strOld strNew w.keyStore.isLocked 0 (w.mapMasterKeys ++ [])
      (w.withKey []) = .ok false (w.withKey []) :=
    changeLoop_append (w := w.withKey []) hcrypted _ 0 h []
  rw [append_nil] at hrun
  exact (changeWalletPassphrase_eq hcrypted).trans hrun

theorem change_of_first
    (h : FirstWithout (fun e => (w.tried E strOld e).Rejected) w.mapMasterKeys before e after) :
    changeWalletPassphrase E strOld strNew w =
      changeLoop E strOld strNew w.keyStore.isLocked before.length (e :: after) (w.withKey []) := by
  have hrun : changeLoop E strOld strNew w.keyStore.isLocked 0 (before ++ e :: after)
      (w.withKey []) = changeLoop E strOld strNew w.keyStore.isLocked (0 + before.length)
        (e :: after) (w.withKey []) :=
    changeLoop_append (w := w.withKey []) hcrypted _ 0 h.before _
  rw [← h.eq, zero_add] at hrun
  exact (changeWalletPassphrase_eq hcrypted).trans hrun

/-! ### When a change is atomic -/

theorem isLocked_eq (vMasterKey : List UInt8) :
    (w.withKey vMasterKey).keyStore.isLocked = vMasterKey.isEmpty := by
  exact (congrArg (· && vMasterKey.isEmpty) hcrypted).trans (true_and _)

theorem withKey_nil_eq_iff : w.withKey [] = w ↔ w.keyStore.isLocked = true := by
  constructor
  · intro h
    rw [← h]
    exact isLocked_eq hcrypted []
  · intro h
    rw [CryptoKeyStore.isLocked, hcrypted, Bool.true_and, List.isEmpty_iff] at h
    rw [MasterKeyWallet.withKey, ← h]

end

theorem changesAtomically_of_false (h : changeWalletPassphrase E strOld strNew w = .ok false w') :
    ChangesAtomically E strOld strNew w ↔ w' = w ∧ ¬w.Unlocks E strOld := by
  constructor
  · intro ha
    refine ⟨ha.unchanged w' h, fun hunlocks => ?_⟩
    obtain ⟨t, ht⟩ := ha.complete hunlocks
    rw [h] at ht
    cases ht
  · rintro ⟨rfl, hunlocks⟩
    refine ⟨fun t ht => ?_, fun t ht => ?_, fun t ht => ?_, fun hu => absurd hu hunlocks⟩
    · rw [h] at ht
      cases ht
      rfl
    · rw [h] at ht
      cases ht
    · rw [h] at ht
      cases ht

theorem changesAtomically_of_true (h : changeWalletPassphrase E strOld strNew w = .ok true w') :
    ChangesAtomically E strOld strNew w ↔
      w'.keyStore.isLocked = w.keyStore.isLocked ∧ w'.Unlocks E strNew := by
  constructor
  · exact fun ha => ⟨ha.relocked w' h, ha.opens w' h⟩
  · rintro ⟨hlocked, hopens⟩
    refine ⟨fun t ht => ?_, fun t ht => ?_, fun t ht => ?_, fun _ => ⟨w', h⟩⟩
    · rw [h] at ht
      cases ht
    · rw [h] at ht
      cases ht
      exact hlocked
    · rw [h] at ht
      cases ht
      exact hopens

theorem changesAtomically_of_error {stop : Stop}
    (h : changeWalletPassphrase E strOld strNew w = .error stop w') :
    ChangesAtomically E strOld strNew w ↔ ¬w.Unlocks E strOld := by
  constructor
  · intro ha hunlocks
    obtain ⟨t, ht⟩ := ha.complete hunlocks
    rw [h] at ht
    cases ht
  · intro hunlocks
    refine ⟨fun t ht => ?_, fun t ht => ?_, fun t ht => ?_, fun hu => absurd hu hunlocks⟩
    · rw [h] at ht
      cases ht
    · rw [h] at ht
      cases ht
    · rw [h] at ht
      cases ht

variable {vMasterKey : List UInt8}

theorem accepts_of_opened (h : w.tried E strPassphrase e = .opened vMasterKey) :
    w.keyStore.accepts E vMasterKey = .ok true := by
  rw [MasterKeyWallet.tried, CMasterKey.tried] at h
  cases hkey : e.2.keyFor E strPassphrase with
  | none => rw [hkey] at h; cases h
  | some key =>
    rw [hkey] at h
    dsimp only at h
    cases hdecrypt : E.decrypt key.1 key.2 e.2.vchCryptedKey with
    | none => rw [hdecrypt] at h; cases h
    | some M =>
      rw [hdecrypt] at h
      dsimp only at h
      cases haccepts : w.keyStore.accepts E M with
      | error stop => rw [haccepts] at h; cases h
      | ok b =>
        rw [haccepts] at h
        cases b with
        | false => cases h
        | true =>
          cases h
          exact haccepts

/-- A record that is encrypted again opens under the new passphrase. -/
theorem tried_sealed (law : DecryptsEncrypted E.toCipher)
    (h : w.tried E strOld e = .opened vMasterKey) (id : ℕ) :
    w.tried E strNew (id, e.2.sealed E strNew vMasterKey) = .opened vMasterKey := by
  have hderives : e.2.Derives := derives_of_tried fun heq => by rw [heq] at h; cases h
  have hsealed : (e.2.sealed E strNew vMasterKey).Derives :=
    ⟨(hderives.measured (E := E)).rounds, hderives.salt, hderives.method⟩
  rw [MasterKeyWallet.tried, CMasterKey.tried, CMasterKey.keyFor_eq hsealed]
  dsimp only
  have hdecrypt : E.decrypt
      (E.deriveKey (e.2.sealed E strNew vMasterKey).nDerivationMethod strNew
        (e.2.sealed E strNew vMasterKey).vchSalt
        (e.2.sealed E strNew vMasterKey).nDeriveIterations).1
      (E.deriveKey (e.2.sealed E strNew vMasterKey).nDerivationMethod strNew
        (e.2.sealed E strNew vMasterKey).vchSalt
        (e.2.sealed E strNew vMasterKey).nDeriveIterations).2
      (e.2.sealed E strNew vMasterKey).vchCryptedKey = some vMasterKey :=
    law _ _ _ (E.length_deriveKey _ _ _ _)
  rw [hdecrypt]
  dsimp only
  rw [accepts_of_opened h]

section

variable (hcrypted : w.keyStore.fUseCrypto = true)
include hcrypted

/-- After the change the wallet unlocks, unless a record before the one that opened stops. -/
theorem unlocks_sealed
    (law : DecryptsEncrypted E.toCipher)
    (hfirst : FirstWithout (fun e => (w.tried E strOld e).Rejected) w.mapMasterKeys before e after)
    (hopened : w.tried E strOld e = .opened vMasterKey) (M : List UInt8) :
    ((w.withRecord E before.length e.1 (e.2.sealed E strNew vMasterKey)).withKey M).Unlocks E
        strNew ↔
      ∀ before' b after' stop,
        FirstWithout (fun e => (w.tried E strNew e).Passed) before before' b after' →
        w.tried E strNew b ≠ .stopped stop := by
  have hmap : ((w.withRecord E before.length e.1 (e.2.sealed E strNew vMasterKey)).withKey
      M).mapMasterKeys = before ++ (e.1, e.2.sealed E strNew vMasterKey) :: after := by
    rw [MasterKeyWallet.withKey, MasterKeyWallet.withRecord]
    rw [hfirst.eq, set_append_right _ _ le_rfl, Nat.sub_self, set_cons_zero]
  have hsealed : w.tried E strNew (e.1, e.2.sealed E strNew vMasterKey) = .opened vMasterKey :=
    tried_sealed law hopened e.1
  rw [unlocks_iff (w := (w.withRecord E before.length e.1
    (e.2.sealed E strNew vMasterKey)).withKey M) hcrypted, hmap]
  rcases forall_or_exists_firstWithout (fun e => (w.tried E strNew e).Passed) before with
    hall | ⟨before', b, after', hb⟩
  · -- the record that is encrypted again is the first that is not passed over
    have hnot : ¬(w.tried E strNew (e.1, e.2.sealed E strNew vMasterKey)).Passed := by
      rw [hsealed]
      exact id
    refine iff_of_true ⟨before, _, after, vMasterKey, ⟨rfl, hall, hnot⟩, hsealed⟩ ?_
    rintro before' b after' stop hb -
    exact hb.without (hall b (hb.eq ▸ mem_append_right _ mem_cons_self))
  · have hb' : FirstWithout (fun e => (w.tried E strNew e).Passed)
        (before ++ (e.1, e.2.sealed E strNew vMasterKey) :: after) before' b
        (after' ++ (e.1, e.2.sealed E strNew vMasterKey) :: after) :=
      ⟨by rw [hb.eq, append_assoc, cons_append], hb.before, hb.without⟩
    constructor
    · rintro ⟨before2, c, after2, M', hc, htried⟩ before3 d after3 stop hd hstop
      obtain ⟨-, rfl, -⟩ := hb.unique hd
      obtain ⟨-, rfl, -⟩ := hb'.unique hc
      have heq : Tried.opened M' = .stopped stop := htried.symm.trans hstop
      cases heq
    · intro h
      have hbmem : b ∈ before := hb.eq ▸ mem_append_right _ mem_cons_self
      have hrejected : w.tried E strOld b = .rejected := (hfirst.before b hbmem).eq
      have hderives : b.2.Derives := derives_of_tried fun heq => by
        rw [hrejected] at heq
        cases heq
      have hpassed := hb.without
      cases htried : w.tried E strNew b with
      | opened M' => exact ⟨before', b, _, M', hb', htried⟩
      | stopped stop => exact absurd htried (h before' b after' stop hb)
      | undecrypted => rw [htried] at hpassed; exact absurd trivial hpassed
      | rejected => rw [htried] at hpassed; exact absurd trivial hpassed
      | underived =>
        rw [MasterKeyWallet.tried, CMasterKey.tried, CMasterKey.keyFor_eq hderives] at htried
        dsimp only at htried
        split at htried
        · cases htried
        · split at htried <;> cases htried

/-- A change that gives up is atomic if the wallet was locked and does not unlock either. -/
theorem changeFits_iff_of_refused
    (hrun : changeWalletPassphrase E strOld strNew w = .ok false (w.withKey []))
    (hfirst : ∀ before e after,
      FirstWithout (fun e => (w.tried E strOld e).Rejected) w.mapMasterKeys before e after →
        (∀ vMasterKey, w.tried E strOld e ≠ .opened vMasterKey) ∧
        ∀ stop, w.tried E strOld e ≠ .stopped stop) :
    ChangesAtomically E strOld strNew w ↔ ChangeFits E strOld strNew w := by
  rw [changesAtomically_of_false hrun, withKey_nil_eq_iff hcrypted]
  constructor
  · rintro ⟨hlocked, hunlocks⟩
    refine ⟨fun before e after vMasterKey he hopened => ?_, fun _ => .inl hlocked⟩
    exact absurd ((unlocks_iff hcrypted).2 ⟨before, e, after, vMasterKey, he, hopened⟩) hunlocks
  · intro hfits
    have hunlocks : ¬w.Unlocks E strOld := by
      intro hunlocks
      obtain ⟨before, e, after, vMasterKey, he, hopened⟩ := (unlocks_iff hcrypted).1 hunlocks
      -- a record before the one that opens would have ended the change
      have hrejected := (hfits.opened before e after vMasterKey he hopened).1
      have hnot : ¬(w.tried E strOld e).Rejected := fun h => he.without h.passed
      exact (hfirst before e after ⟨he.eq, hrejected, hnot⟩).1 vMasterKey hopened
    refine ⟨?_, hunlocks⟩
    rcases hfits.unopened hunlocks with hlocked | ⟨before, e, after, stop, he, hstop⟩
    · exact hlocked
    · exact absurd hstop ((hfirst before e after he).2 stop)

theorem change_of_opened
    (hfirst : FirstWithout (fun e => (w.tried E strOld e).Rejected) w.mapMasterKeys before e after)
    (hopened : w.tried E strOld e = .opened vMasterKey) :
    changeWalletPassphrase E strOld strNew w =
      .ok true ((w.withRecord E before.length e.1 (e.2.sealed E strNew vMasterKey)).withKey
        (if w.keyStore.isLocked then [] else vMasterKey)) := by
  have htried : (w.withKey []).tried E strOld e = .opened vMasterKey := hopened
  rw [change_of_first hcrypted hfirst, changeLoop_cons (w := w.withKey []) hcrypted, htried]
  rfl

theorem changeFits_iff_of_opened
    (law : DecryptsEncrypted E.toCipher)
    (hfirst : FirstWithout (fun e => (w.tried E strOld e).Rejected) w.mapMasterKeys before e after)
    (hopened : w.tried E strOld e = .opened vMasterKey) :
    ChangesAtomically E strOld strNew w ↔ ChangeFits E strOld strNew w := by
  have hpassed := hfirst.mono (q := fun e => (w.tried E strOld e).Passed) (fun _ h => h.passed) (by
    rw [hopened]
    exact id)
  have hlocked : (((w.withRecord E before.length e.1 (e.2.sealed E strNew vMasterKey)).withKey
      (if w.keyStore.isLocked then [] else vMasterKey)).keyStore.isLocked = w.keyStore.isLocked) ↔
        w.keyStore.isLocked = true ∨ vMasterKey ≠ [] := by
    rw [isLocked_eq (w := w.withRecord E before.length e.1 _) hcrypted]
    cases w.keyStore.isLocked with
    | true => exact iff_of_true rfl (.inl rfl)
    | false => cases vMasterKey <;> simp
  rw [changesAtomically_of_true (change_of_opened hcrypted hfirst hopened), hlocked,
    unlocks_sealed hcrypted law hfirst hopened]
  constructor
  · rintro ⟨hkey, hnew⟩
    refine ⟨fun before' e' after' M he hM => ?_, fun hunlocks => ?_⟩
    · obtain ⟨rfl, rfl, rfl⟩ := hpassed.unique he
      have heq : Tried.opened vMasterKey = .opened M := hopened.symm.trans hM
      cases heq
      exact ⟨hfirst.before, hkey, hnew⟩
    · exact absurd ((unlocks_iff hcrypted).2 ⟨before, e, after, vMasterKey, hpassed, hopened⟩)
        hunlocks
  · intro hfits
    exact (hfits.opened before e after vMasterKey hpassed hopened).2

theorem changeFits_iff_of_stopped
    {stop : Stop}
    (hfirst : FirstWithout (fun e => (w.tried E strOld e).Rejected) w.mapMasterKeys before e after)
    (hstopped : w.tried E strOld e = .stopped stop) :
    ChangesAtomically E strOld strNew w ↔ ChangeFits E strOld strNew w := by
  have hpassed := hfirst.mono (q := fun e => (w.tried E strOld e).Passed) (fun _ h => h.passed) (by
    rw [hstopped]
    exact id)
  have hopens : ∀ before' e' after' M,
      FirstWithout (fun e => (w.tried E strOld e).Passed) w.mapMasterKeys before' e' after' →
      w.tried E strOld e' ≠ .opened M := by
    intro before' e' after' M he hM
    obtain ⟨-, rfl, -⟩ := hpassed.unique he
    have heq : Tried.opened M = .stopped stop := hM.symm.trans hstopped
    cases heq
  have hunlocks : ¬w.Unlocks E strOld := by
    intro hunlocks
    obtain ⟨before', e', after', M, he, hM⟩ := (unlocks_iff hcrypted).1 hunlocks
    exact hopens before' e' after' M he hM
  have hrun : changeWalletPassphrase E strOld strNew w = .error stop (w.withKey []) := by
    have htried : (w.withKey []).tried E strOld e = .stopped stop := hstopped
    rw [change_of_first hcrypted hfirst, changeLoop_cons (w := w.withKey []) hcrypted, htried]
  refine iff_of_true ((changesAtomically_of_error hrun).2 hunlocks) ⟨?_, fun _ => .inr ?_⟩
  · intro before' e' after' M he hM
    exact absurd hM (hopens before' e' after' M he)
  · exact ⟨before, e, after, stop, hfirst, hstopped⟩

end

/-- A change of the passphrase of an encrypted wallet is atomic exactly if the records before the
one that opens decrypt as well, and a wallet that does not unlock was locked. -/
theorem changePassphrase_atomic_iff (hcrypted : w.keyStore.fUseCrypto = true)
    (law : DecryptsEncrypted E.toCipher) :
    ChangesAtomically E strOld strNew w ↔ ChangeFits E strOld strNew w := by
  rcases forall_or_exists_firstWithout (fun e => (w.tried E strOld e).Rejected) w.mapMasterKeys
    with hall | ⟨before, e, after, hfirst⟩
  · refine changeFits_iff_of_refused hcrypted (change_of_all hcrypted hall) ?_
    intro before e after he
    exact absurd (hall e (he.eq ▸ mem_append_right _ mem_cons_self)) he.without
  · have hrefused : ∀ t : Tried, w.tried E strOld e = t → t = .underived ∨ t = .undecrypted →
        (ChangesAtomically E strOld strNew w ↔ ChangeFits E strOld strNew w) := by
      intro t ht hcases
      refine changeFits_iff_of_refused hcrypted ?_ ?_
      · have htried : (w.withKey []).tried E strOld e = t := ht
        rw [change_of_first hcrypted hfirst, changeLoop_cons (w := w.withKey []) hcrypted, htried]
        rcases hcases with rfl | rfl <;> rfl
      · intro before' e' after' he
        obtain ⟨-, rfl, -⟩ := hfirst.unique he
        rw [ht]
        rcases hcases with rfl | rfl
        · exact ⟨fun _ => Tried.noConfusion, fun _ => Tried.noConfusion⟩
        · exact ⟨fun _ => Tried.noConfusion, fun _ => Tried.noConfusion⟩
    cases htried : w.tried E strOld e with
    | underived => exact hrefused _ htried (.inl rfl)
    | undecrypted => exact hrefused _ htried (.inr rfl)
    | opened vMasterKey => exact changeFits_iff_of_opened hcrypted law hfirst htried
    | stopped stop => exact changeFits_iff_of_stopped hcrypted hfirst htried
    | rejected =>
      have hwithout := hfirst.without
      rw [htried] at hwithout
      exact absurd trivial hwithout

/-! ### One key under a passphrase -/

/-- The passphrase itself, filled up, is the key. -/
def passphraseEnv : PassphraseEnv where
  toKeyStoreEnv := firstKeyEnv
  deriveKey _ strKeyData _ _ := ((strKeyData ++ replicate 32 0).take 32, 0)
  length_deriveKey _ strKeyData _ _ := by
    have hlength : 32 ≤ (strKeyData ++ replicate 32 (0 : UInt8)).length := by
      rw [length_append, length_replicate]
      exact le_add_left _ _
    exact length_take_of_le hlength
  scaled nDeriveIterations := nDeriveIterations
  averaged nDeriveIterations := nDeriveIterations
  writes := true

theorem passphraseEnv_law : DecryptsEncrypted passphraseEnv.toCipher := fun key _ data hkey => by
  have htake : (key ++ data).take 32 = key := take_left' hkey
  have hdrop : (key ++ data).drop 32 = data := drop_left' hkey
  change (if (key ++ data).take 32 = key then some ((key ++ data).drop 32) else none) = some data
  rw [if_pos htake, hdrop]

/-- The master key under a passphrase. -/
def recordFor (strPassphrase : List UInt8) : CMasterKey where
  vchCryptedKey := (strPassphrase ++ replicate 32 0).take 32 ++ replicate 32 7
  vchSalt := replicate 8 0
  nDerivationMethod := 0
  nDeriveIterations := 25000
  vchOtherDerivationParameters := []

/-- A wallet with a record for each of some passphrases. -/
def passphraseWallet (vMasterKey : List UInt8) (passphrases : List (List UInt8)) :
    MasterKeyWallet where
  keyStore := ⟨∅, ∅, vMasterKey, true⟩
  mapMasterKeys := passphrases.zipIdx.map fun e => (e.2, recordFor e.1)
  database := fun id => passphrases[id]?.map recordFor

theorem changePassphrase_atomic_iff_locked :
    (∃ w', changeWalletPassphrase passphraseEnv [97] [98] (passphraseWallet [] [[97]]) =
      .ok true w') ∧
    (ChangesAtomically passphraseEnv [97] [98] (passphraseWallet [] [[97]]) ↔
      ChangeFits passphraseEnv [97] [98] (passphraseWallet [] [[97]])) :=
  ⟨⟨_, rfl⟩, changePassphrase_atomic_iff rfl passphraseEnv_law⟩

/-- A wrong passphrase locks the wallet, and the passphrase of the second record does not change. -/
theorem changePassphrase_not_atomic :
    ¬ChangesAtomically passphraseEnv [98] [99] (passphraseWallet (replicate 32 7) [[97]]) ∧
    ¬ChangesAtomically passphraseEnv [98] [99] (passphraseWallet [] [[97], [98]]) := by
  constructor
  · intro h
    have hkey := congrArg (·.keyStore.vMasterKey) (h.unchanged _ rfl)
    cases hkey
  · intro h
    obtain ⟨w', hw⟩ := h.complete ⟨_, rfl⟩
    cases hw

end Espers
