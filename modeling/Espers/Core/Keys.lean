import Espers.Core.Transaction

/-!
# Keys

A private key is 32 bytes in the range of the curve's order, with the form its public key has.  A
public key is the list of its bytes, empty when it is invalid.  The curve and the hashes are
parameters.
-/

namespace Espers

/-- A hash of a public key. -/
abbrev CKeyID := BitVec 160

/-- A `CPubKey`, as the bytes that count. -/
abbrev PubKey := List UInt8

/-- `IsCompressed`. -/
def isCompressed (pubkey : PubKey) : Bool := pubkey.length == 33

/-- The largest private key. -/
def vchMax : List UInt8 := [ 0xFF, 0xFF, 0xFF, 0xFF, 0xFF, 0xFF, 0xFF, 0xFF,
  0xFF, 0xFF, 0xFF, 0xFF, 0xFF, 0xFF, 0xFF, 0xFE,
  0xBA, 0xAE, 0xDC, 0xE6, 0xAF, 0x48, 0xA0, 0x3B,
  0xBF, 0xD2, 0x5E, 0x8C, 0xD0, 0x36, 0x41, 0x40]

/-- The second loop of `CKey::Check`. -/
def notAbove : List UInt8 → List UInt8 → Bool
  | v :: vch, m :: vchMax => if v < m then true else if v > m then false else notAbove vch vchMax
  | _, _ => true

/-- `CKey::Check`. -/
def checkSecret (vch : List UInt8) : Bool := vch.any (· != 0) && notAbove vch vchMax

/-- A private key. -/
structure CKey where
  fValid : Bool
  fCompressed : Bool
  vch : List UInt8
  /-- `fValid` corresponds to the actual state. -/
  valid : fValid = true → vch.length = 32 ∧ checkSecret vch = true

namespace CKey

/-- `CKey()`. -/
def null : CKey := ⟨false, false, [], fun h => absurd h Bool.false_ne_true⟩

/-- `CKey::Set`. -/
def set (key : CKey) (secret : List UInt8) (fCompressedIn : Bool) : CKey :=
  if h : secret.length = 32 ∧ checkSecret secret = true then
    ⟨true, fCompressedIn, secret, fun _ => h⟩
  else ⟨false, key.fCompressed, key.vch, fun h => absurd h Bool.false_ne_true⟩

/-- The bytes between `begin` and `end`. -/
def bytes (key : CKey) : List UInt8 := if key.fValid then key.vch else []

theorem ext {key key' : CKey} (h1 : key.fValid = key'.fValid)
    (h2 : key.fCompressed = key'.fCompressed) (h3 : key.vch = key'.vch) : key = key' := by
  cases key
  cases key'
  cases h1
  cases h2
  cases h3
  rfl

theorem set_vch {key : CKey} (h : key.fValid = true) (key' : CKey) :
    key'.set key.vch key.fCompressed = key := by
  rw [set, dif_pos (key.valid h)]
  exact ext h.symm rfl rfl

end CKey

/-- The curve and the hashes of public keys. -/
structure KeyFunctions where
  /-- The public key of a private key, in one of its two forms. -/
  pubKeyOf : List UInt8 → Bool → PubKey
  hash160 : List UInt8 → BitVec 160
  hash : List UInt8 → Uint256
  /-- A compressed public key has 33 bytes, another one 65. -/
  length_pubKeyOf : ∀ secret fCompressed, (pubKeyOf secret fCompressed).length =
    if fCompressed then 33 else 65

/-- `CKey::GetPubKey`. -/
def CKey.getPubKey (K : KeyFunctions) (key : CKey) : Except Stop PubKey :=
  if key.fValid then .ok (K.pubKeyOf key.vch key.fCompressed) else .error (.crash "assert(fValid)")

theorem isCompressed_pubKeyOf (K : KeyFunctions) (secret : List UInt8) (fCompressed : Bool) :
    isCompressed (K.pubKeyOf secret fCompressed) = fCompressed := by
  rw [isCompressed, K.length_pubKeyOf]
  cases fCompressed <;> rfl

end Espers
