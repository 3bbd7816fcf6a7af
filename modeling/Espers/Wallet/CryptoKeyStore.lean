import Espers.Core.Keys
import Std.Data.TreeMap

/-!
# The encrypted key store

Keys are kept plain in one map, or encrypted under a master key in another; the master key is
forgotten while the store is locked.  Only the first encrypted key is tried when the store is
unlocked, and any master key will do when there is none.

* `Encrypted` : the store as the plain store that it stands for, under one master key.
* `keyStore_refines` : **in every run the store behaves like the plain one while it is not locked,
  and unlocks with one master key only**.
-/

namespace Espers

open Exec List Function EStateM

/-- The block cipher, as the key store uses it: a key, an initialization vector and the data. -/
structure Cipher where
  encrypt : List UInt8 → Uint256 → List UInt8 → List UInt8
  /-- Decryption fails on wrong padding. -/
  decrypt : List UInt8 → Uint256 → List UInt8 → Option (List UInt8)

/-- What the key store depends on. -/
structure KeyStoreEnv extends KeyFunctions, Cipher

/-- `CCryptoKeyStore`. -/
structure CryptoKeyStore where
  mapKeys : Std.TreeMap CKeyID CKey
  mapCryptedKeys : Std.TreeMap CKeyID (PubKey × List UInt8)
  vMasterKey : List UInt8
  fUseCrypto : Bool

/-- `WALLET_CRYPTO_KEY_SIZE`. -/
def walletCryptoKeySize : ℕ := 32

section Operations

variable (E : KeyStoreEnv)

/-- `EncryptSecret`. -/
def encryptSecret (vMasterKey vchPlaintext : List UInt8) (nIV : Uint256) : Option (List UInt8) :=
  if vMasterKey.length ≠ walletCryptoKeySize then none else
    some (E.encrypt vMasterKey nIV vchPlaintext)

/-- `DecryptSecret`. -/
def decryptSecret (vMasterKey vchCiphertext : List UInt8) (nIV : Uint256) : Option (List UInt8) :=
  if vMasterKey.length ≠ walletCryptoKeySize then none else E.decrypt vMasterKey nIV vchCiphertext

/-- `IsLocked`. -/
def CryptoKeyStore.isLocked (s : CryptoKeyStore) : Bool := s.fUseCrypto && s.vMasterKey.isEmpty

/-- `SetCrypted`. -/
def setCrypted : EStateM Stop CryptoKeyStore Bool := do
  let s ← get
  if s.fUseCrypto then return true
  else if !s.mapKeys.isEmpty then return false
  else do
    set { s with fUseCrypto := true }
    return true

/-- `Lock`. -/
def lockKeyStore : EStateM Stop CryptoKeyStore Bool := do
  if !(← setCrypted) then return false
  else do
    modify fun s => { s with vMasterKey := [] }
    return true

/-- The master key decrypts the key to one that matches its public key. -/
def opensKey (vMasterKeyIn : List UInt8) (vchPubKey : PubKey) (vchCryptedSecret : List UInt8) :
    Except Stop Bool :=
  match decryptSecret E vMasterKeyIn vchCryptedSecret (E.hash vchPubKey) with
  | none => .ok false
  | some vchSecret =>
    if vchSecret.length ≠ 32 then .ok false
    else do
      let pubkey ← (CKey.null.set vchSecret (isCompressed vchPubKey)).getPubKey E.toKeyFunctions
      return pubkey == vchPubKey

/-- `Unlock` tries the first encrypted key. -/
def unlockKeyStore (vMasterKeyIn : List UInt8) : EStateM Stop CryptoKeyStore Bool := do
  if !(← setCrypted) then return false
  else do
    let s ← get
    match s.mapCryptedKeys.toList with
    | [] =>
      modify fun s => { s with vMasterKey := vMasterKeyIn }
      return true
    -- the loop ends with the first key
    | (_, vchPubKey, vchCryptedSecret) :: _ =>
      if ← lift (opensKey E vMasterKeyIn vchPubKey vchCryptedSecret) then do
        modify fun s => { s with vMasterKey := vMasterKeyIn }
        return true
      else return false

/-- `AddCryptedKey`. -/
def addCryptedKey (vchPubKey : PubKey) (vchCryptedSecret : List UInt8) :
    EStateM Stop CryptoKeyStore Bool := do
  if !(← setCrypted) then return false
  else do
    modify fun s => { s with
      mapCryptedKeys := s.mapCryptedKeys.insert (E.hash160 vchPubKey)
        (vchPubKey, vchCryptedSecret) }
    return true

/-- `AddKeyPubKey`. -/
def addKeyPubKey (key : CKey) (pubkey : PubKey) : EStateM Stop CryptoKeyStore Bool := do
  let s ← get
  if !s.fUseCrypto then do
    set { s with mapKeys := s.mapKeys.insert (E.hash160 pubkey) key }
    return true
  else if s.isLocked then return false
  else
    match encryptSecret E s.vMasterKey key.bytes (E.hash pubkey) with
    | none => return false
    | some vchCryptedSecret => addCryptedKey E pubkey vchCryptedSecret

/-- `GetKey`. -/
def CryptoKeyStore.getKey (s : CryptoKeyStore) (address : CKeyID) : Option CKey :=
  if !s.fUseCrypto then s.mapKeys[address]?
  else
    match s.mapCryptedKeys[address]? with
    | none => none
    | some (vchPubKey, vchCryptedSecret) =>
      match decryptSecret E s.vMasterKey vchCryptedSecret (E.hash vchPubKey) with
      | none => none
      | some vchSecret =>
        if vchSecret.length ≠ 32 then none else
          some (CKey.null.set vchSecret (isCompressed vchPubKey))

/-- The loop of `EncryptKeys`. -/
def encryptLoop (vMasterKeyIn : List UInt8) : List (CKeyID × CKey) →
    EStateM Stop CryptoKeyStore Bool
  | [] => return true
  | (_, key) :: keys => do
    let vchPubKey ← lift (key.getPubKey E.toKeyFunctions)
    match encryptSecret E vMasterKeyIn key.bytes (E.hash vchPubKey) with
    | none => return false
    | some vchCryptedSecret =>
      if !(← addCryptedKey E vchPubKey vchCryptedSecret) then return false
      else encryptLoop vMasterKeyIn keys

/-- `EncryptKeys`. -/
def encryptKeys (vMasterKeyIn : List UInt8) : EStateM Stop CryptoKeyStore Bool := do
  let s ← get
  if !s.mapCryptedKeys.isEmpty || s.fUseCrypto then return false
  else do
    modify fun s => { s with fUseCrypto := true }
    if !(← encryptLoop E vMasterKeyIn s.mapKeys.toList) then return false
    else do
      modify fun s => { s with mapKeys := ∅ }
      return true

end Operations

/-! ### Runs -/

variable {E : KeyStoreEnv} {s t : CryptoKeyStore} {plain : CKeyID → Option CKey} {M : List UInt8}
  {key : CKey} {pubkey : PubKey}

/-- What the key store is asked to do. -/
inductive KeyStoreStep where
  | addKeyPubKey (key : CKey) (pubkey : PubKey)
  | encryptKeys (vMasterKeyIn : List UInt8)
  | lock
  | unlock (vMasterKeyIn : List UInt8)

namespace KeyStoreStep

/-- A step of the key store. -/
def exec (E : KeyStoreEnv) : KeyStoreStep → EStateM Stop CryptoKeyStore Bool
  | .addKeyPubKey key pubkey => Espers.addKeyPubKey E key pubkey
  | .encryptKeys vMasterKeyIn => Espers.encryptKeys E vMasterKeyIn
  | .lock => lockKeyStore
  | .unlock vMasterKeyIn => unlockKeyStore E vMasterKeyIn

/-- Keys match their public keys, and master keys have 32 bytes. -/
def Admissible (E : KeyStoreEnv) : KeyStoreStep → Prop
  | .addKeyPubKey key pubkey => key.getPubKey E.toKeyFunctions = .ok pubkey
  | .encryptKeys vMasterKeyIn => vMasterKeyIn.length = 32
  | .lock => True
  | .unlock vMasterKeyIn => vMasterKeyIn.length = 32

/-- The plain store: the key last added under each identifier. -/
def plainly (E : KeyStoreEnv) (plain : CKeyID → Option CKey) (added : Bool) :
    KeyStoreStep → CKeyID → Option CKey
  | .addKeyPubKey key pubkey =>
    if added then update plain (E.hash160 pubkey) (some key) else plain
  | _ => plain

end KeyStoreStep

/-- An empty key store. -/
def CryptoKeyStore.empty : CryptoKeyStore := ⟨∅, ∅, [], false⟩

/-- The states that are reached from a state, with the plain store that is fed the same keys. -/
inductive KeyStoreRun (E : KeyStoreEnv) (s0 : CryptoKeyStore) (plain0 : CKeyID → Option CKey) :
    CryptoKeyStore → (CKeyID → Option CKey) → Prop
  | start : KeyStoreRun E s0 plain0 s0 plain0
  | step {s t : CryptoKeyStore} {plain : CKeyID → Option CKey} {a : KeyStoreStep} {b : Bool}
      (hrun : KeyStoreRun E s0 plain0 s plain) (hadm : a.Admissible E)
      (hok : a.exec E s = .ok b t) : KeyStoreRun E s0 plain0 t (a.plainly E plain b)

/-- Decryption inverts encryption, and what a wrong master key yields does not match the public
key. -/
structure CipherLaws (E : KeyStoreEnv) : Prop where
  decrypt_encrypt : ∀ M nIV x, M.length = 32 → x.length = 32 →
    E.decrypt M nIV (E.encrypt M nIV x) = some x
  wrongKey : ∀ (M M' : List UInt8) (key : CKey) pubkey x, M.length = 32 → M'.length = 32 → M' ≠ M →
    key.getPubKey E.toKeyFunctions = .ok pubkey →
    E.decrypt M' (E.hash pubkey) (E.encrypt M (E.hash pubkey) key.vch) = some x →
    (CKey.null.set x (isCompressed pubkey)).getPubKey E.toKeyFunctions ≠ .ok pubkey

/-! ### What the store stands for -/

theorem CKey.getPubKey_eq_ok : key.getPubKey E.toKeyFunctions = .ok pubkey ↔
      key.fValid = true ∧ E.pubKeyOf key.vch key.fCompressed = pubkey := by
  unfold CKey.getPubKey
  split_ifs with h <;> simp [h]

/-- The entry of a key that is encrypted under a master key. -/
def encryptedEntry (E : KeyStoreEnv) (M : List UInt8) (key : CKey) : PubKey × List UInt8 :=
  (E.pubKeyOf key.vch key.fCompressed,
    E.encrypt M (E.hash (E.pubKeyOf key.vch key.fCompressed)) key.vch)

/-- The store holds the keys of the plain one, either as they are or under one master key. -/
structure Encrypted (E : KeyStoreEnv) (s : CryptoKeyStore) (plain : CKeyID → Option CKey)
    (M : List UInt8) : Prop where
  length : M.length = 32
  matching : ∀ id key, plain id = some key →
    key.fValid = true ∧ E.hash160 (E.pubKeyOf key.vch key.fCompressed) = id
  uncrypted : s.fUseCrypto = false →
    s.vMasterKey = [] ∧ (∀ id : CKeyID, s.mapCryptedKeys[id]? = none) ∧
      ∀ id : CKeyID, s.mapKeys[id]? = plain id
  crypted : s.fUseCrypto = true → (s.vMasterKey = [] ∨ s.vMasterKey = M) ∧
    s.mapKeys.isEmpty = true ∧ ∀ id : CKeyID, s.mapCryptedKeys[id]? =
    (plain id).map (encryptedEntry E M)

/-- The next state holds the keys of the plain store too, under the same master key once there is
one. -/
def Follows (E : KeyStoreEnv) (s : CryptoKeyStore) (M : List UInt8) (t : CryptoKeyStore)
    (plain : CKeyID → Option CKey) : Prop :=
  ∃ M', Encrypted E t plain M' ∧
    (s.mapCryptedKeys.isEmpty = false → M' = M ∧ t.mapCryptedKeys.isEmpty = false)

theorem setCrypted_of_crypted (h : s.fUseCrypto = true) : setCrypted s = .ok true s := by
  rw [setCrypted, get_bind_apply, if_pos h]
  rfl

theorem getElem?_insert_eq {β : Type} {m : Std.TreeMap CKeyID β} {id id' : CKeyID} {x : β} :
    (m.insert id' x)[id]? = update (fun id : CKeyID => m[id]?) id' (some x) id := by
  by_cases h : id = id'
  · rw [h, update_self, Std.TreeMap.getElem?_insert_self]
  · rw [update_of_ne h, Std.TreeMap.getElem?_insert, if_neg]
    rw [Std.LawfulEqCmp.compare_eq_iff_eq]
    exact Ne.symm h

theorem mapKeys_isEmpty_iff : s.mapKeys.isEmpty = true ↔ ∀ id : CKeyID, s.mapKeys[id]? = none := by
  rw [Std.TreeMap.isEmpty_iff_forall_not_mem]
  refine forall_congr' fun id => ?_
  rw [Std.TreeMap.mem_iff_isSome_getElem?, Bool.not_eq_true, Option.isSome_eq_false_iff,
    Option.isNone_iff_eq_none]

namespace Encrypted

theorem follows (h : Encrypted E s plain M) : Follows E s M s plain := ⟨M, h, fun hne => ⟨rfl, hne⟩⟩

/-- The store is encrypted, becomes so because it has no keys, or has plain keys. -/
theorem setCrypted (h : Encrypted E s plain M) :
    (setCrypted s = .ok true { s with fUseCrypto := true } ∧
      Encrypted E { s with fUseCrypto := true } plain M) ∨
    setCrypted s = .ok false s := by
  cases hc : s.fUseCrypto with
  | true =>
    have hs : { s with fUseCrypto := true } = s := by rw [← hc]
    rw [hs]
    exact .inl ⟨setCrypted_of_crypted hc, h⟩
  | false =>
    obtain ⟨hmaster, hcrypted, hkeys⟩ := h.uncrypted hc
    have hne : ¬ s.fUseCrypto = true := by rw [hc]; exact Bool.false_ne_true
    rw [Espers.setCrypted, get_bind_apply, if_neg hne]
    by_cases he : s.mapKeys.isEmpty = true
    · rw [he, if_neg (show ¬ (!true) = true from Bool.false_ne_true)]
      refine .inl ⟨rfl, h.length, h.matching, fun hfalse => absurd hfalse.symm Bool.false_ne_true,
        fun _ => ?_⟩
      refine ⟨.inl hmaster, he, fun id => ?_⟩
      rw [← hkeys id, mapKeys_isEmpty_iff.1 he id]
      exact hcrypted id
    · rw [if_pos (by rw [Bool.eq_false_of_not_eq_true he]; rfl)]
      exact .inr rfl

theorem lock (h : Encrypted E s plain M) {b : Bool} (hok : lockKeyStore s = .ok b t) :
    Follows E s M t plain := by
  rw [lockKeyStore] at hok
  obtain ⟨heq, hs⟩ | heq := h.setCrypted
  · rw [bind_of_ok heq] at hok
    obtain ⟨-, rfl⟩ := Result.ok.inj hok
    refine ⟨M, ?_, fun hne => ⟨rfl, hne⟩⟩
    exact ⟨h.length, h.matching, fun hfalse => absurd hfalse.symm Bool.false_ne_true, fun hc =>
      ⟨.inl rfl, (hs.crypted hc).2⟩⟩
  · rw [bind_of_ok heq] at hok
    obtain ⟨-, rfl⟩ := Result.ok.inj hok
    exact h.follows

theorem of_mem (h : Encrypted E s plain M) {id : CKeyID} {e : PubKey × List UInt8}
    (he : s.mapCryptedKeys[id]? = some e) :
    s.fUseCrypto = true ∧ ∃ key, plain id = some key ∧ key.fValid = true ∧
    e = encryptedEntry E M key := by
  cases hc : s.fUseCrypto with
  | false =>
    rw [(h.uncrypted hc).2.1 id] at he
    cases he
  | true =>
    rw [(h.crypted hc).2.2 id] at he
    obtain ⟨key, hkey, rfl⟩ := Option.map_eq_some_iff.1 he
    exact ⟨rfl, key, hkey, (h.matching id key hkey).1, rfl⟩

end Encrypted

section

variable (laws : CipherLaws E) (hM : M.length = 32) (hkey : key.fValid = true)
include laws hM hkey

theorem decryptSecret_encrypt
    (nIV : Uint256) : decryptSecret E M (E.encrypt M nIV key.vch) nIV = some key.vch := by
  rw [decryptSecret, walletCryptoKeySize, if_neg (not_not.2 hM)]
  exact laws.decrypt_encrypt M nIV key.vch hM (key.valid hkey).1

theorem opensKey_right :
    opensKey E M (encryptedEntry E M key).1 (encryptedEntry E M key).2 = .ok true := by
  have hset : CKey.null.set key.vch (isCompressed (encryptedEntry E M key).1) = key := by
    rw [encryptedEntry, isCompressed_pubKeyOf]
    exact CKey.set_vch hkey _
  have hpub : key.getPubKey E.toKeyFunctions = .ok (encryptedEntry E M key).1 :=
    CKey.getPubKey_eq_ok.2 ⟨hkey, rfl⟩
  have hdec : decryptSecret E M (encryptedEntry E M key).2 (E.hash (encryptedEntry E M key).1) =
      some key.vch := decryptSecret_encrypt laws hM hkey _
  simp only [opensKey, hdec, (key.valid hkey).1, hset, hpub]
  exact congrArg Except.ok (beq_self_eq_true _)

theorem opensKey_wrong {M' : List UInt8} (hne : M' ≠ M) :
    opensKey E M' (encryptedEntry E M key).1 (encryptedEntry E M key).2 ≠ .ok true := by
  intro hok
  unfold opensKey at hok
  cases hdec : decryptSecret E M' (encryptedEntry E M key).2
    (E.hash (encryptedEntry E M key).1) with
  | none =>
    simp only [hdec] at hok
    cases hok
  | some x =>
    simp only [hdec] at hok
    split_ifs at hok with hx
    · cases hok
    · -- the decrypted secret would match the public key
      obtain ⟨pubkey, hpub, heq⟩ := except_bind_eq_ok.1 hok
      obtain rfl := eq_of_beq (Except.ok.inj heq)
      rw [decryptSecret] at hdec
      split_ifs at hdec with hM'
      exact laws.wrongKey M M' key _ x hM (not_not.1 hM') hne (CKey.getPubKey_eq_ok.2 ⟨hkey, rfl⟩)
        hdec hpub

end

namespace Encrypted

/-- Without encrypted keys every master key will do, otherwise the first one decides. -/
theorem unlock_eq (h : Encrypted E s plain M) (M' : List UInt8) :
    (unlockKeyStore E M' s = .ok false s ∧ s.fUseCrypto = false) ∨
    ((∀ id : CKeyID, s.mapCryptedKeys[id]? = none) ∧
      Encrypted E { s with fUseCrypto := true } plain M ∧
      unlockKeyStore E M' s = .ok true { s with fUseCrypto := true, vMasterKey := M' }) ∨
    ∃ key, s.fUseCrypto = true ∧ key.fValid = true ∧ unlockKeyStore E M' s =
        (do if ← lift (opensKey E M' (encryptedEntry E M key).1 (encryptedEntry E M key).2) then do
              modify fun s => { s with vMasterKey := M' }
              return true
            else return false : EStateM Stop CryptoKeyStore Bool) s := by
  obtain ⟨heq, hs⟩ | heq := h.setCrypted
  · rw [unlockKeyStore, bind_of_ok heq, if_neg (show ¬ (!true) = true from Bool.false_ne_true),
      get_bind_apply]
    cases hl : s.mapCryptedKeys.toList with
    | nil =>
      refine .inr (.inl ⟨fun id => ?_, hs, rfl⟩)
      rw [Option.eq_none_iff_forall_ne_some]
      intro e he
      rw [← Std.TreeMap.mem_toList_iff_getElem?_eq_some, hl] at he
      exact not_mem_nil he
    | cons e l =>
      obtain ⟨id, e⟩ := e
      have hmem : s.mapCryptedKeys[id]? = some e := by
        rw [← Std.TreeMap.mem_toList_iff_getElem?_eq_some, hl]
        exact mem_cons_self
      obtain ⟨hc, key, -, hkey, rfl⟩ := h.of_mem hmem
      have hs' : { s with fUseCrypto := true } = s := by rw [← hc]
      refine .inr (.inr ⟨key, hc, hkey, ?_⟩)
      rw [hs']
  · rw [unlockKeyStore, bind_of_ok heq]
    refine .inl ⟨rfl, ?_⟩
    cases hc : s.fUseCrypto with
    | false => rfl
    | true =>
      rw [setCrypted_of_crypted hc] at heq
      cases heq

theorem unlock (laws : CipherLaws E) (h : Encrypted E s plain M) {M' : List UInt8}
    (hM' : M'.length = 32) {b : Bool} (hok : unlockKeyStore E M' s = .ok b t) :
    Follows E s M t plain := by
  obtain ⟨heq, -⟩ | ⟨hnone, hs, heq⟩ | ⟨key, hc, hkey, heq⟩ := h.unlock_eq M'
  · rw [heq] at hok
    obtain ⟨-, rfl⟩ := Result.ok.inj hok
    exact h.follows
  · rw [heq] at hok
    obtain ⟨-, rfl⟩ := Result.ok.inj hok
    refine ⟨M', ⟨hM', h.matching, fun hfalse => absurd hfalse.symm Bool.false_ne_true,
      fun hc => ?_⟩, fun hne => ?_⟩
    swap
    · -- there is no encrypted key
      obtain ⟨id, hid⟩ := Std.TreeMap.isEmpty_eq_false_iff_exists_mem.1 hne
      rw [Std.TreeMap.mem_iff_isSome_getElem?, hnone id] at hid
      cases hid
    refine ⟨.inr rfl, (hs.crypted hc).2.1, fun id => ?_⟩
    -- no key is encrypted, so that the plain store is empty
    have hplain := (hs.crypted hc).2.2 id
    rw [hnone id, eq_comm, Option.map_eq_none_iff] at hplain
    rw [hnone id, hplain]
    rfl
  · rw [heq] at hok
    obtain ⟨b', s', hlift, hrest⟩ := bind_eq_ok.1 hok
    obtain ⟨hopens, rfl⟩ := lift_eq_ok.1 hlift
    cases b' with
    | false =>
      obtain ⟨-, rfl⟩ := Result.ok.inj hrest
      exact h.follows
    | true =>
      obtain rfl : M' = M := by
        by_contra hne
        exact opensKey_wrong laws h.length hkey hne hopens
      obtain ⟨-, rfl⟩ := Result.ok.inj hrest
      refine ⟨M', ⟨h.length, h.matching, fun hfalse => ?_, fun _ => ⟨.inr rfl, (h.crypted hc).2⟩⟩,
        fun hne => ⟨rfl, hne⟩⟩
      exact absurd (hc.symm.trans hfalse) (Ne.symm Bool.false_ne_true)

/-- **Once a key is encrypted, its master key is the only one that unlocks the store.** -/
theorem unlock_iff (laws : CipherLaws E) (h : Encrypted E s plain M)
    (hne : s.mapCryptedKeys.isEmpty = false) :
    unlockKeyStore E M s = .ok true { s with vMasterKey := M } ∧
      ∀ M' ≠ M, (∀ t, unlockKeyStore E M' s ≠ .ok true t) ∧
      finalState (unlockKeyStore E M' s) = s := by
  obtain ⟨id, hid⟩ := Std.TreeMap.isEmpty_eq_false_iff_exists_mem.1 hne
  obtain ⟨e, he⟩ := Option.isSome_iff_exists.1 (Std.TreeMap.mem_iff_isSome_getElem?.1 hid)
  have hc := (h.of_mem he).1
  have hcase : ∀ M', ∃ key, key.fValid = true ∧ unlockKeyStore E M' s =
      (do if ← lift (opensKey E M' (encryptedEntry E M key).1 (encryptedEntry E M key).2) then do
            modify fun s => { s with vMasterKey := M' }
            return true
          else return false : EStateM Stop CryptoKeyStore Bool) s := fun M' => by
    obtain ⟨-, hfalse⟩ | ⟨hnone, -⟩ | ⟨key, -, hkey, heq⟩ := h.unlock_eq M'
    · rw [hc] at hfalse
      cases hfalse
    · rw [hnone id] at he
      cases he
    · exact ⟨key, hkey, heq⟩
  refine ⟨?_, fun M' hM' => ?_⟩
  · obtain ⟨key, hkey, heq⟩ := hcase M
    rw [heq, opensKey_right laws h.length hkey]
    rfl
  · obtain ⟨key, hkey, heq⟩ := hcase M'
    rw [heq]
    have hwrong := opensKey_wrong laws h.length hkey hM'
    cases hopens : opensKey E M' (encryptedEntry E M key).1 (encryptedEntry E M key).2 with
    | error e => exact ⟨fun t ht => (nomatch ht), rfl⟩
    | ok b =>
      cases b with
      | true => exact absurd hopens hwrong
      | false => exact ⟨fun t ht => (nomatch ht), rfl⟩

theorem addCryptedKey_eq (hc : s.fUseCrypto = true) (vchCryptedSecret : List UInt8) :
    addCryptedKey E pubkey vchCryptedSecret s = .ok true { s with
      mapCryptedKeys := s.mapCryptedKeys.insert (E.hash160 pubkey)
        (pubkey, vchCryptedSecret) } := by
  rw [addCryptedKey, bind_of_ok (setCrypted_of_crypted hc)]
  rfl

/-- A key is added plain, or under the master key. -/
theorem addKeyPubKey (h : Encrypted E s plain M)
    (hkey : key.getPubKey E.toKeyFunctions = .ok pubkey) {b : Bool}
    (hok : addKeyPubKey E key pubkey s = .ok b t) :
    Follows E s M t ((KeyStoreStep.addKeyPubKey key pubkey).plainly E plain b) := by
  obtain ⟨hvalid, rfl⟩ := CKey.getPubKey_eq_ok.1 hkey
  have hmatching : ∀ id key', update plain (E.hash160 (E.pubKeyOf key.vch key.fCompressed))
      (some key) id = some key' →
      key'.fValid = true ∧ E.hash160 (E.pubKeyOf key'.vch key'.fCompressed) = id :=
      fun id key' hid => by
    by_cases heq : id = E.hash160 (E.pubKeyOf key.vch key.fCompressed)
    · rw [heq, update_self] at hid
      obtain rfl := Option.some.inj hid
      exact ⟨hvalid, heq.symm⟩
    · rw [update_of_ne heq] at hid
      exact h.matching id key' hid
  rw [Espers.addKeyPubKey, get_bind_apply] at hok
  cases hc : s.fUseCrypto with
  | false =>
    obtain ⟨hmaster, hcrypted, hkeys⟩ := h.uncrypted hc
    rw [hc, if_pos (show (!false) = true from rfl)] at hok
    obtain ⟨rfl, rfl⟩ := Result.ok.inj hok
    refine ⟨M, ⟨h.length, hmatching, fun _ => ⟨hmaster, hcrypted, fun id => ?_⟩, fun hc' => ?_⟩,
      fun hne => ⟨rfl, hne⟩⟩
    · rw [KeyStoreStep.plainly, if_pos rfl, getElem?_insert_eq, ← funext hkeys]
    · exact absurd hc' Bool.false_ne_true
  | true =>
    rw [hc, if_neg (show ¬ (!true) = true from Bool.false_ne_true)] at hok
    obtain ⟨hmaster, hkeys, hcrypted⟩ := h.crypted hc
    by_cases hl : s.isLocked = true
    · rw [if_pos hl] at hok
      obtain ⟨rfl, rfl⟩ := Result.ok.inj hok
      exact h.follows
    · rw [if_neg hl] at hok
      have hM : s.vMasterKey = M := by
        refine hmaster.resolve_left fun hnil => hl ?_
        rw [CryptoKeyStore.isLocked, hc, hnil]
        rfl
      have henc : encryptSecret E s.vMasterKey key.bytes
        (E.hash (E.pubKeyOf key.vch key.fCompressed)) = some (encryptedEntry E M key).2 := by
        rw [encryptSecret, hM, walletCryptoKeySize, if_neg (not_not.2 h.length), CKey.bytes,
          if_pos hvalid]
        rfl
      simp only [henc, addCryptedKey_eq hc] at hok
      obtain ⟨rfl, rfl⟩ := Result.ok.inj hok
      refine ⟨M, ⟨h.length, hmatching, fun hc' => absurd (hc.symm.trans hc')
        (Ne.symm Bool.false_ne_true), fun _ => ⟨hmaster, hkeys, fun id => ?_⟩⟩, fun _ =>
        ⟨rfl, Std.TreeMap.isEmpty_insert⟩⟩
      rw [KeyStoreStep.plainly, if_pos rfl, getElem?_insert_eq]
      by_cases heq : id = E.hash160 (E.pubKeyOf key.vch key.fCompressed)
      · rw [heq, update_self, update_self]
        rfl
      · rw [update_of_ne heq, update_of_ne heq]
        exact hcrypted id

end Encrypted

theorem keyStore_locked (hl : s.isLocked = true) :
    (∀ id, s.getKey E id = none) ∧ ∀ key pubkey, Espers.addKeyPubKey E key pubkey s =
    .ok false s := by
  obtain ⟨hc, hmaster⟩ := (Bool.and_eq_true _ _).mp hl
  have hnil : s.vMasterKey = [] := isEmpty_iff.1 hmaster
  refine ⟨fun id => ?_, fun key pubkey => ?_⟩
  · rw [CryptoKeyStore.getKey, hc, if_neg (show ¬ (!true) = true from Bool.false_ne_true)]
    cases s.mapCryptedKeys[id]? with
    | none => rfl
    | some e =>
      simp only [hnil]
      rfl
  · rw [Espers.addKeyPubKey, get_bind_apply, hc,
      if_neg (show ¬ (!true) = true from Bool.false_ne_true), if_pos hl]
    rfl

/-! ### Encrypting all keys -/

/-- The map after every key of the list is encrypted. -/
def encryptAll (E : KeyStoreEnv) (M : List UInt8) (keys : List (CKeyID × CKey))
    (m : Std.TreeMap CKeyID (PubKey × List UInt8)) : Std.TreeMap CKeyID (PubKey × List UInt8) :=
  keys.foldl (fun m e => m.insert e.1 (encryptedEntry E M e.2)) m

theorem encryptLoop_eq {keys : List (CKeyID × CKey)} (hM : M.length = 32) (hc : s.fUseCrypto = true)
    (hkeys : ∀ e ∈ keys, e.2.fValid = true ∧ E.hash160 (E.pubKeyOf e.2.vch e.2.fCompressed) = e.1) :
    encryptLoop E M keys s = .ok true { s with mapCryptedKeys := encryptAll E M keys s.mapCryptedKeys } := by
  induction keys generalizing s with
  | nil => rfl
  | cons e keys ih =>
    obtain ⟨hvalid, hid⟩ := hkeys e mem_cons_self
    have hpub : e.2.getPubKey E.toKeyFunctions = .ok (encryptedEntry E M e.2).1 :=
      CKey.getPubKey_eq_ok.2 ⟨hvalid, rfl⟩
    have henc : encryptSecret E M e.2.bytes (E.hash (encryptedEntry E M e.2).1) =
        some (encryptedEntry E M e.2).2 := by
      rw [encryptSecret, walletCryptoKeySize, if_neg (not_not.2 hM), CKey.bytes, if_pos hvalid]
      rfl
    have hid' : E.hash160 (encryptedEntry E M e.2).1 = e.1 := hid
    rw [encryptLoop, hpub, bind_of_ok (lift_ok _ _)]
    simp only [henc]
    rw [bind_of_ok (Encrypted.addCryptedKey_eq hc _), hid']
    exact ih hc fun e' he' => hkeys e' (mem_cons_of_mem _ he')

theorem getElem?_encryptAll {keys : List (CKeyID × CKey)} (hkeys : ∀ e ∈ keys, plain e.1 = some e.2)
    (m : Std.TreeMap CKeyID (PubKey × List UInt8)) (id : CKeyID) :
    (encryptAll E M keys m)[id]? =
      if id ∈ keys.map Prod.fst then (plain id).map (encryptedEntry E M) else m[id]? := by
  induction keys generalizing m with
  | nil => rfl
  | cons e keys ih =>
    have hcons : encryptAll E M (e :: keys) m =
        encryptAll E M keys (m.insert e.1 (encryptedEntry E M e.2)) := rfl
    rw [hcons, ih fun e' he' => hkeys e' (mem_cons_of_mem _ he'), getElem?_insert_eq, map_cons]
    by_cases hmem : id ∈ keys.map Prod.fst
    · rw [if_pos hmem, if_pos (mem_cons_of_mem _ hmem)]
    · rw [if_neg hmem]
      by_cases heq : id = e.1
      · rw [heq, update_self, if_pos mem_cons_self, hkeys e mem_cons_self]
        rfl
      · rw [update_of_ne heq, if_neg]
        rintro (_ | ⟨_, hmem'⟩)
        · exact heq rfl
        · exact hmem hmem'

namespace Encrypted

theorem encryptKeys (h : Encrypted E s plain M) {M' : List UInt8} (hM' : M'.length = 32)
    {b : Bool} (hok : encryptKeys E M' s = .ok b t) : Follows E s M t plain := by
  rw [Espers.encryptKeys, get_bind_apply] at hok
  by_cases hrefuse : (!s.mapCryptedKeys.isEmpty || s.fUseCrypto) = true
  · rw [if_pos hrefuse] at hok
    obtain ⟨-, rfl⟩ := Result.ok.inj hok
    exact h.follows
  · rw [if_neg hrefuse, modify_bind_apply] at hok
    rw [Bool.or_eq_true, not_or] at hrefuse
    have hc : s.fUseCrypto = false := Bool.eq_false_of_not_eq_true hrefuse.2
    obtain ⟨hmaster, hcrypted, hkeys⟩ := h.uncrypted hc
    have hmem : ∀ e ∈ s.mapKeys.toList, plain e.1 = some e.2 := fun e he => by
      rw [← hkeys e.1]
      exact Std.TreeMap.mem_toList_iff_getElem?_eq_some.1 he
    have hloop := encryptLoop_eq (E := E) (s := { s with fUseCrypto := true }) hM' rfl fun e he =>
      h.matching e.1 e.2 (hmem e he)
    rw [bind_of_ok hloop] at hok
    obtain ⟨-, rfl⟩ := Result.ok.inj hok
    refine ⟨M', ⟨hM', h.matching, fun hfalse => absurd hfalse.symm Bool.false_ne_true, fun _ => ?_⟩,
      fun hne => absurd (congrArg not hne) hrefuse.1⟩
    refine ⟨.inl hmaster, Std.TreeMap.isEmpty_emptyc, fun id => ?_⟩
    refine (getElem?_encryptAll hmem s.mapCryptedKeys id).trans ?_
    split_ifs with hid
    · rfl
    · -- a key that is not in the list is not in the store
      cases hp : plain id with
      | none => exact hcrypted id
      | some key =>
        refine absurd (mem_map.2 ⟨(id, key), ?_, rfl⟩) hid
        rw [Std.TreeMap.mem_toList_iff_getElem?_eq_some, hkeys id, hp]

/-- **A step leaves one master key.** -/
theorem step (laws : CipherLaws E) (h : Encrypted E s plain M) {a : KeyStoreStep} {b : Bool}
    (hadm : a.Admissible E) (hok : a.exec E s = .ok b t) :
    Follows E s M t (a.plainly E plain b) := by
  cases a with
  | addKeyPubKey key pubkey => exact h.addKeyPubKey hadm hok
  | encryptKeys vMasterKeyIn => exact h.encryptKeys hadm hok
  | lock => exact h.lock hok
  | unlock vMasterKeyIn => exact h.unlock laws hadm hok

/-- While the store is not locked its keys are those of the plain store. -/
theorem getKey (laws : CipherLaws E) (h : Encrypted E s plain M) (hl : s.isLocked = false)
    (id : CKeyID) : s.getKey E id = plain id := by
  cases hc : s.fUseCrypto with
  | false =>
    rw [CryptoKeyStore.getKey, hc, if_pos (show (!false) = true from rfl)]
    exact (h.uncrypted hc).2.2 id
  | true =>
    obtain ⟨hmaster, -, hcrypted⟩ := h.crypted hc
    have hM : s.vMasterKey = M := by
      refine hmaster.resolve_left fun hnil => ?_
      rw [CryptoKeyStore.isLocked, hc, hnil] at hl
      cases hl
    rw [CryptoKeyStore.getKey, hc, if_neg (show ¬ (!true) = true from Bool.false_ne_true),
      hcrypted id]
    cases hp : plain id with
    | none => rfl
    | some key =>
      have hvalid := (h.matching id key hp).1
      have hdec : decryptSecret E s.vMasterKey (encryptedEntry E M key).2
          (E.hash (encryptedEntry E M key).1) = some key.vch := by
        rw [hM]
        exact decryptSecret_encrypt laws h.length hvalid _
      have hset : CKey.null.set key.vch (isCompressed (encryptedEntry E M key).1) = key := by
        rw [encryptedEntry, isCompressed_pubKeyOf]
        exact CKey.set_vch hvalid _
      simp only [Option.map_some, hdec, (key.valid hvalid).1, ne_eq, not_true, if_false, hset]

theorem run {s0 : CryptoKeyStore} {plain0 : CKeyID → Option CKey} (laws : CipherLaws E)
    (h : Encrypted E s0 plain0 M) (hrun : KeyStoreRun E s0 plain0 s plain) :
    Follows E s0 M s plain := by
  induction hrun with
  | start => exact h.follows
  | step _ hadm hok ih =>
    obtain ⟨M', hs, hsame⟩ := ih
    obtain ⟨M'', ht, hsame'⟩ := hs.step laws hadm hok
    refine ⟨M'', ht, fun hne => ?_⟩
    obtain ⟨heq, hne'⟩ := hsame hne
    obtain ⟨heq', hne''⟩ := hsame' hne'
    exact ⟨heq'.trans heq, hne''⟩

theorem empty : Encrypted E .empty (fun _ => none) (replicate 32 0) where
  length := rfl
  matching _ _ hkey := (nomatch hkey)
  uncrypted _ := ⟨rfl, fun _ => Std.TreeMap.getElem?_emptyc, fun _ => Std.TreeMap.getElem?_emptyc⟩
  crypted hc := absurd hc Bool.false_ne_true

end Encrypted

/-- **While the store is not locked it has exactly the keys of the plain store.**  While it is
locked it gives and takes none.  Once there is an encrypted key, all keys are encrypted under one
master key from then on, which unlocks the store; any other one leaves it as it was. -/
theorem keyStore_refines (laws : CipherLaws E)
    (hrun : KeyStoreRun E .empty (fun _ => none) s plain) :
    (s.isLocked = false → ∀ id, s.getKey E id = plain id) ∧
    (s.isLocked = true → (∀ id, s.getKey E id = none) ∧
      ∀ key pubkey, addKeyPubKey E key pubkey s = .ok false s) ∧
    ∃ M, s.mapCryptedKeys.isEmpty = false → ∀ t plain', KeyStoreRun E s plain t plain' →
      (∀ (id : CKeyID) e, t.mapCryptedKeys[id]? = some e →
        ∃ key, plain' id = some key ∧ e = encryptedEntry E M key) ∧
      unlockKeyStore E M t = .ok true { t with vMasterKey := M } ∧
      ∀ M' ≠ M, (∀ t', unlockKeyStore E M' t ≠ .ok true t') ∧
        finalState (unlockKeyStore E M' t) = t := by
  obtain ⟨M, h, -⟩ := Encrypted.empty.run laws hrun
  refine ⟨h.getKey laws, keyStore_locked, M, fun hne t plain' hrun' => ?_⟩
  obtain ⟨M', h', hsame⟩ := h.run laws hrun'
  obtain ⟨rfl, hne'⟩ := hsame hne
  refine ⟨fun id e he => ?_, h'.unlock_iff laws hne'⟩
  obtain ⟨-, key, hkey, -, heq⟩ := h'.of_mem he
  exact ⟨key, hkey, heq⟩

/-- The private key 1. -/
def firstKey : CKey := CKey.null.set (replicate 31 0 ++ [1]) true

/-- The compressed public key of the private key 1. -/
def firstPubKey : PubKey := [
  0x02, 0x79, 0xBE, 0x66, 0x7E, 0xF9, 0xDC, 0xBB, 0xAC, 0x55, 0xA0, 0x62, 0x95, 0xCE, 0x87, 0x0B,
  0x07, 0x02, 0x9B, 0xFC, 0xDB, 0x2D, 0xCE, 0x28, 0xD9, 0x59, 0xF2, 0x81, 0x5B, 0x16,
  0xF8, 0x17, 0x98]

/-- A cipher that writes the master key in front of the data. -/
def firstKeyEnv : KeyStoreEnv where
  pubKeyOf _ fCompressed := if fCompressed then firstPubKey else replicate 65 4
  hash160 _ := 0x751e76e8199196d454941c45d1b3a323f1433bd6
  hash _ := 0
  length_pubKeyOf _ fCompressed := by cases fCompressed <;> rfl
  encrypt vMasterKey _ data := vMasterKey ++ data
  decrypt vMasterKey _ data := if data.take 32 = vMasterKey then some (data.drop 32) else none

theorem firstKeyEnv_laws : CipherLaws firstKeyEnv where
  decrypt_encrypt M _ x hM _ := by
    have htake : (M ++ x).take 32 = M := by rw [← hM, take_left]
    have hdrop : (M ++ x).drop 32 = x := by rw [← hM, drop_left]
    change (if (M ++ x).take 32 = M then some ((M ++ x).drop 32) else none) = some x
    rw [if_pos htake, hdrop]
  wrongKey M M' key _ x hM _ hne _ hdec := by
    have htake : (M ++ key.vch).take 32 = M := by rw [← hM, take_left]
    change (if (M ++ key.vch).take 32 = M' then some ((M ++ key.vch).drop 32) else none) =
      some x at hdec
    rw [htake, if_neg hne.symm] at hdec
    cases hdec

theorem keyStore_refines_firstKey : ∃ s : CryptoKeyStore, s.isLocked = false ∧
    s.getKey firstKeyEnv 0x751e76e8199196d454941c45d1b3a323f1433bd6 = some firstKey ∧
    ∃ M, unlockKeyStore firstKeyEnv M s = .ok true { s with vMasterKey := M } ∧
      ∀ M' ≠ M, (∀ t, unlockKeyStore firstKeyEnv M' s ≠ .ok true t) ∧
        finalState (unlockKeyStore firstKeyEnv M' s) = s := by
  have h0 : KeyStoreRun firstKeyEnv .empty (fun _ => none) .empty (fun _ => none) := .start
  have h1 := h0.step (a := .unlock (replicate 32 7)) rfl rfl
  have h2 := h1.step (a := .addKeyPubKey firstKey firstPubKey) rfl rfl
  obtain ⟨hkeys, -, M, hM⟩ := keyStore_refines firstKeyEnv_laws h2
  exact ⟨_, rfl, (hkeys rfl _).trans rfl, M, (hM rfl _ _ .start).2⟩

end Espers
