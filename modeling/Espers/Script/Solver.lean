import Espers.Chain.Mempool
import Espers.Script.Machine

/-!
# Recognizing and signing scripts

`Solver` compares a script with the templates of the standard types; `IsMine` asks whether a key
store can satisfy a script, and `SignSignature` does so.  The key store and the signatures are
parameters.

The functions have the names of the source; the second `Solver`, which signs, is `solverSign`.
-/

namespace Espers

/-! ### Templates -/

/-- `txnouttype`. -/
inductive TxnOutType where
  | nonStandard | pubKey | pubKeyHash | scriptHash | multiSig | nullData
  deriving DecidableEq

/-- `MAX_OP_RETURN_RELAY`. -/
def maxOpReturnRelay : ℕ := 40

/-- The opcodes of templates: `OP_SMALLDATA`, `OP_SMALLINTEGER`, `OP_PUBKEYS`, `OP_PUBKEYHASH` and
`OP_PUBKEY`. -/
def opSmallData : UInt8 := 0xf9
def opSmallInteger : UInt8 := 0xfa
def opPubKeys : UInt8 := 0xfb
def opPubKeyHash : UInt8 := 0xfd
def opPubKey : UInt8 := 0xfe

/-- `mTemplates`, in the order of the types. -/
def mTemplates : List (TxnOutType × CScript) := [
  -- the sender provides a public key, the receiver adds a signature
  (.pubKey, [opPubKey, 0xac]),
  -- the sender provides the hash of a public key, the receiver a signature and the key
  (.pubKeyHash, [0x76, 0xa9, opPubKeyHash, 0x88, 0xac]),
  -- the sender provides public keys, the receivers signatures
  (.multiSig, [opSmallInteger, opPubKeys, opSmallInteger, 0xae]),
  -- provably prunable outputs
  (.nullData, [0x6a, opSmallData]),
  (.nullData, [0x6a])]

/-- `CScript::DecodeOP_N`. -/
def decodeOpN (opcode : UInt8) : ℕ := if opcode = 0 then 0 else opcode.toNat - 0x50

/-- The comparison of one opcode with one of a template; what it matches is noted. -/
def matchOpcode (opcode1 : UInt8) (vch1 : Valtype) (opcode2 : UInt8) (vch2 : Valtype)
    (vSolutions : List Valtype) : Option (List Valtype) :=
  if opcode2 = opPubKey then
    if vch1.length < 33 ∨ vch1.length > 120 then none else some (vSolutions ++ [vch1])
  else if opcode2 = opPubKeyHash then
    if vch1.length ≠ 20 then none else some (vSolutions ++ [vch1])
  else if opcode2 = opSmallInteger then
    if opcode1 = 0 ∨ 0x51 ≤ opcode1.toNat ∧ opcode1.toNat ≤ 0x60 then
      some (vSolutions ++ [[UInt8.ofNat (decodeOpN opcode1)]])
    else none
  else if opcode2 = opSmallData then
    if vch1.length > maxOpReturnRelay then none else some vSolutions
  else if opcode1 ≠ opcode2 ∨ vch1 ≠ vch2 then none
  else some vSolutions

/-- The loop over public keys: what they are, the opcode after them with its data, and the rest of
the script.  The opcode is `OP_INVALIDOPCODE` when it cannot be read. -/
def collectPubKeys : ℕ → UInt8 → Valtype → CScript → List Valtype →
    UInt8 × Valtype × CScript × List Valtype
  | 0, opcode1, vch1, script1, vSolutions => (opcode1, vch1, script1, vSolutions)
  | fuel + 1, opcode1, vch1, script1, vSolutions =>
    if 33 ≤ vch1.length ∧ vch1.length ≤ 120 then
      match getOp script1 with
      | none => (0xff, [], [], vSolutions ++ [vch1])
      | some (opcode1, vch1', script1) =>
        collectPubKeys fuel opcode1 vch1' script1 (vSolutions ++ [vch1])
    else (opcode1, vch1, script1, vSolutions)

/-- The comparison of a script with a template. -/
def matchTemplate : ℕ → CScript → CScript → List Valtype → Option (List Valtype)
  | 0, _, _, _ => none
  | fuel + 1, script1, script2, vSolutions =>
    if script1.isEmpty && script2.isEmpty then some vSolutions
    else
      match getOp script1, getOp script2 with
      | some (opcode1, vch1, script1), some (opcode2, vch2, script2) =>
        if opcode2 = opPubKeys then
          match collectPubKeys (script1.length + 1) opcode1 vch1 script1 vSolutions,
            getOp script2 with
          | (opcode1, vch1, script1, vSolutions), some (opcode2, vch2, script2) =>
            (matchOpcode opcode1 vch1 opcode2 vch2 vSolutions).bind
              (matchTemplate fuel script1 script2)
          | _, none => none
        else (matchOpcode opcode1 vch1 opcode2 vch2 vSolutions).bind
          (matchTemplate fuel script1 script2)
      | _, _ => none

/-- The scan over the templates. -/
def scanTemplates (scriptPubKey : CScript) : List (TxnOutType × CScript) →
    Bool × TxnOutType × List Valtype
  | [] => (false, .nonStandard, [])
  | (type, template) :: templates =>
    match matchTemplate (scriptPubKey.length + 1) scriptPubKey template [] with
    | none => scanTemplates scriptPubKey templates
    | some vSolutions =>
      if type = .multiSig then
        let m := ((vSolutions.headD []).getD 0 0).toNat
        let n := ((vSolutions.getLastD []).getD 0 0).toNat
        (!(decide (m < 1) || decide (n < 1) || decide (m > n) ||
          decide (vSolutions.length - 2 ≠ n)), type, vSolutions)
      else (true, type, vSolutions)

/-- `Solver`: whether the script has a standard type, the type, and what the template matched. -/
def solver (scriptPubKey : CScript) : Bool × TxnOutType × List Valtype :=
  -- a shortcut
  if isPayToScriptHash scriptPubKey then (true, .scriptHash, [(scriptPubKey.drop 2).take 20])
  else scanTemplates scriptPubKey mTemplates

/-- A `CKeyStore`, as scripts use it. -/
structure KeyStore where
  haveKey : CKeyID → Bool
  getKey : CKeyID → Option CKey
  getPubKey : CKeyID → Option PubKey
  getCScript : BitVec 160 → Option CScript

/-- What signing depends on. -/
structure SignEnv extends ScriptEnv where
  /-- `CKey::Sign`. -/
  sign : CKey → Uint256 → Option Valtype

/-- `uint160(vch)`. -/
def uint160OfBytes (vch : Valtype) : BitVec 160 :=
  if vch.length = 20 then BitVec.ofNat 160 (Wire.valueLE vch) else 0

/-- `CPubKey(vch).GetID()`. -/
def keyIdOfBytes (E : KeyFunctions) (vch : Valtype) : CKeyID := E.hash160 (pubKeyOfBytes vch)

section IsMine

variable (E : KeyFunctions) (keystore : KeyStore)

/-- `HaveKeys`. -/
def haveKeys (pubkeys : List Valtype) : ℕ := pubkeys.countP fun pubkey =>
    keystore.haveKey (keyIdOfBytes E pubkey)

/-- `IsMine`, to a depth of redeem scripts. -/
def isMineTo : ℕ → CScript → Option Bool
  | 0, _ => none
  | depth + 1, scriptPubKey =>
    match solver scriptPubKey with
    | (false, _, _) => some false
    | (true, type, vSolutions) =>
      match type with
      | .nonStandard | .nullData => some false
      | .pubKey => some (keystore.haveKey (keyIdOfBytes E (vSolutions.headD [])))
      | .pubKeyHash => some (keystore.haveKey (uint160OfBytes (vSolutions.headD [])))
      | .scriptHash =>
        match keystore.getCScript (uint160OfBytes (vSolutions.headD [])) with
        | none => some false
        | some subscript => isMineTo depth subscript
      | .multiSig =>
        -- only when all the keys are owned
        let keys := (vSolutions.drop 1).dropLast
        some (haveKeys E keystore keys == keys.length)

/-- `IsMine` is true. -/
def IsMine (scriptPubKey : CScript) : Prop :=
    ∃ depth, isMineTo E keystore depth scriptPubKey = some true

end IsMine

/-! ### Signing -/

section Signing

variable (E : SignEnv) (keystore : KeyStore) (hash : Uint256) (nHashType : UInt8)

/-- `Sign1`: the script with the signature, if there is one. -/
def sign1 (address : CKeyID) (scriptSig : CScript) : Option CScript :=
  match keystore.getKey address with
  | none => none
  | some key =>
    match E.sign key hash with
    | none => none
    | some vchSig => some (scriptSig ++ pushData (vchSig ++ [nHashType]))

/-- The loop of `SignN`: the number of signatures, and the script. -/
def signLoop (nRequired : ℕ) : List Valtype → ℕ → CScript → ℕ × CScript
  | [], nSigned, scriptSig => (nSigned, scriptSig)
  | pubkey :: pubkeys, nSigned, scriptSig =>
    if nSigned < nRequired then
      match sign1 E keystore hash nHashType (keyIdOfBytes E.toKeyFunctions pubkey) scriptSig with
      | none => signLoop nRequired pubkeys nSigned scriptSig
      | some scriptSig => signLoop nRequired pubkeys (nSigned + 1) scriptSig
    else (nSigned, scriptSig)

/-- `SignN`. -/
def signN (multisigdata : List Valtype) (scriptSig : CScript) : Bool × CScript :=
  let nRequired := ((multisigdata.headD []).getD 0 0).toNat
  let (nSigned, scriptSig) :=
    signLoop E keystore hash nHashType nRequired (multisigdata.drop 1).dropLast 0 scriptSig
  (nSigned == nRequired, scriptSig)

/-- `Solver` with a key store: whether the script is signed completely, what signs it, and its
type. -/
def solverSign (scriptPubKey : CScript) : Bool × CScript × TxnOutType :=
  match solver scriptPubKey with
  | (false, type, _) => (false, [], type)
  | (true, type, vSolutions) =>
    match type with
    | .nonStandard | .nullData => (false, [], type)
    | .pubKey =>
      match sign1 E keystore hash nHashType (keyIdOfBytes E.toKeyFunctions (vSolutions.headD []))
        [] with
      | none => (false, [], type)
      | some scriptSig => (true, scriptSig, type)
    | .pubKeyHash =>
      let keyID := uint160OfBytes (vSolutions.headD [])
      match sign1 E keystore hash nHashType keyID [] with
      | none => (false, [], type)
      | some scriptSig => (true, scriptSig ++ pushData ((keystore.getPubKey keyID).getD []), type)
    | .scriptHash =>
      match keystore.getCScript (uint160OfBytes (vSolutions.headD [])) with
      | none => (false, [], type)
      | some subscript => (true, subscript, type)
    | .multiSig =>
      -- `OP_0`, a workaround for a bug of `CHECKMULTISIG`
      let (fOk, scriptSig) := signN E keystore hash nHashType vSolutions [0x00]
      (fOk, scriptSig, type)

end Signing

/-- `txTo.vin[nIn].scriptSig = scriptSig`. -/
def CTransaction.withScriptSig (txTo : CTransaction) (nIn : ℕ) (scriptSig : CScript) :
    CTransaction :=
  { txTo with vin := txTo.vin.modify nIn fun txin => { txin with scriptSig := scriptSig } }

/-- `SignSignature`: the answer, and the transaction it leaves. -/
def signSignature (E : SignEnv) (keystore : KeyStore) (fromPubKey : CScript)
    (txTo : CTransaction) (nIn : ℕ) (nHashType : UInt8) : Except Stop (Bool × CTransaction) :=
  if nIn ≥ txTo.vin.length then .error (.crash "assert(nIn < txTo.vin.size())")
  else
    -- leave out the signature from the hash, since a signature can't sign itself
    let hash := signatureHash E.toScriptEnv fromPubKey txTo nIn nHashType.toNat
    let (fSolved, scriptSig, whichType) := solverSign E keystore hash nHashType fromPubKey
    if !fSolved then .ok (false, txTo.withScriptSig nIn scriptSig)
    else if whichType = .scriptHash then
      -- what was returned is the subscript, which is evaluated in the end
      let subscript := scriptSig
      let txTo := txTo.withScriptSig nIn scriptSig
      let hash2 := signatureHash E.toScriptEnv subscript txTo nIn nHashType.toNat
      let (fSub, scriptSig, subType) := solverSign E keystore hash2 nHashType subscript
      -- the subscript is appended whether or not it is completely signed
      let txTo := txTo.withScriptSig nIn (scriptSig ++ pushData subscript)
      if !(fSub && decide (subType ≠ .scriptHash)) then .ok (false, txTo)
      else .ok (verifies E.toScriptEnv ⟨txTo, nIn, standardScriptVerifyFlags, 0⟩
        (scriptSig ++ pushData subscript) fromPubKey, txTo)
    else
      let txTo := txTo.withScriptSig nIn scriptSig
      .ok (verifies E.toScriptEnv ⟨txTo, nIn, standardScriptVerifyFlags, 0⟩ scriptSig fromPubKey,
        txTo)

end Espers
