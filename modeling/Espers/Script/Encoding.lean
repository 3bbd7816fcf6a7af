import Espers.Core.Script

/-!
# Numbers, signatures and public keys in scripts

What the script machine reads out of the elements of its stack: numbers and truth values, and the
encodings that it asks of signatures and public keys.

* `bnSetvch_bnGetvch` : a number is read back from its bytes.
* `length_bnGetvch_le` : numbers of limited size have few bytes.
-/

namespace Espers

open List Int Nat

/-! ### Flags -/

/-- `SCRIPT_VERIFY_NULLDUMMY`: the dummy element of `CHECKMULTISIG` must be empty. -/
def scriptVerifyNullDummy : ℕ := 2

/-- `SCRIPT_VERIFY_DISCOURAGE_UPGRADABLE_NOPS`. -/
def scriptVerifyDiscourageUpgradableNops : ℕ := 4

/-- `SCRIPT_VERIFY_STRICTENC`. -/
def scriptVerifyStrictEnc : ℕ := 8

/-- `SCRIPT_VERIFY_ALLOW_EMPTY_SIG`. -/
def scriptVerifyAllowEmptySig : ℕ := 16

/-- `SCRIPT_VERIFY_FIX_HASHTYPE`. -/
def scriptVerifyFixHashtype : ℕ := 32

/-- `SCRIPT_VERIFY_CHECKLOCKTIMEVERIFY`. -/
def scriptVerifyCheckLockTimeVerify : ℕ := 64

/-- `flags & flag`. -/
def hasFlag (flags flag : ℕ) : Bool := flags &&& flag != 0

/-- The sign bit of the last byte is set. -/
def setSign (vch : List UInt8) : List UInt8 := vch.dropLast ++ [vch.getLastD 0 ||| 0x80]

/-- `CBigNum::getvch`: the magnitude, lowest byte first, with the sign in the highest bit. -/
def bnGetvch (n : ℤ) : List UInt8 := if n < 0 then setSign (getvch n.natAbs) else getvch n.natAbs

/-- `CBigNum::setvch`. -/
def bnSetvch (vch : List UInt8) : ℤ :=
  let top := vch.getLastD 0
  let magnitude := ofBytes (vch.dropLast ++ [top &&& 0x7f])
  if 0x80 ≤ top.toNat then -(magnitude : ℤ) else magnitude

/-- `CBigNum::getint`, which stops at the ends of `int`. -/
def getint (n : ℤ) : ℤ := max (-2 ^ 31) (min n (2 ^ 31 - 1))

/-- The loop of `CastToBool`, from the byte at `i` on. -/
def castToBool : List UInt8 → Bool
  | [] => false
  | b :: vch =>
    -- can be negative zero
    if b != 0 then !(vch.isEmpty && b == 0x80) else castToBool vch

/-! ### Signatures -/

/-- The loop of `CompareBigEndian` over numbers of one length. -/
def compareBytes : List UInt8 → List UInt8 → Ordering
  | c1 :: s1, c2 :: s2 => if c1 > c2 then .gt else if c2 > c1 then .lt else compareBytes s1 s2
  | _, _ => .eq

/-- `CompareBigEndian`. -/
def compareBigEndian (c1 c2 : List UInt8) : Ordering :=
  if (c1.take (c1.length - c2.length)).any (· != 0) then .gt
  else if (c2.take (c2.length - c1.length)).any (· != 0) then .lt
  else compareBytes (c1.drop (c1.length - c2.length)) (c2.drop (c2.length - c1.length))

/-- Half of the order of secp256k1's generator minus 1. -/
def vchMaxModHalfOrder : List UInt8 := [ 0x7F, 0xFF, 0xFF, 0xFF, 0xFF, 0xFF, 0xFF, 0xFF,
  0xFF, 0xFF, 0xFF, 0xFF, 0xFF, 0xFF, 0xFF, 0xFF,
  0x5D, 0x57, 0x6E, 0x73, 0x57, 0xA4, 0x50, 0x1D,
  0xDF, 0xE9, 0x2F, 0x46, 0x68, 0x1B, 0x20, 0xA0]

/-- `CKey::CheckSignatureElement`, with `half`. -/
def checkSignatureElement (vch : List UInt8) : Bool :=
  compareBigEndian vch [] == .gt && compareBigEndian vch vchMaxModHalfOrder != .gt

/-- An element of a signature: not negative, and not excessively padded. -/
def isDERElement (vchSig : List UInt8) (pos nLen : ℕ) : Bool :=
  vchSig.getD (pos - 2) 0 == 0x02 && nLen != 0 && vchSig.getD pos 0 &&& 0x80 == 0 &&
    !(decide (nLen > 1) && vchSig.getD pos 0 == 0 && vchSig.getD (pos + 1) 0 &&& 0x80 == 0)

/-- `nLenR` of a signature. -/
def sigLenR (vchSig : List UInt8) : ℕ := (vchSig.getD 3 0).toNat

/-- `nLenS` of a signature. -/
def sigLenS (vchSig : List UInt8) : ℕ := (vchSig.getD (5 + sigLenR vchSig) 0).toNat

/-- `IsDERSignature`, with the hash type at the end:
`<30> <total len> <02> <len R> <R> <02> <len S> <S> <hashtype>`. -/
def isDERSignature (vchSig : List UInt8) : Bool :=
  decide (9 ≤ vchSig.length) && decide (vchSig.length ≤ 73) && vchSig.getD 0 0 == 0x30 &&
    (vchSig.getD 1 0).toNat == vchSig.length - 3 &&
    decide (5 + sigLenR vchSig < vchSig.length) &&
    sigLenR vchSig + sigLenS vchSig + 7 == vchSig.length &&
    isDERElement vchSig 4 (sigLenR vchSig) &&
    isDERElement vchSig (6 + sigLenR vchSig) (sigLenS vchSig)

/-- `IsLowDERSignature`. -/
def isLowDERSignature (vchSig : List UInt8) : Bool :=
  isDERSignature vchSig &&
    checkSignatureElement ((vchSig.drop (6 + sigLenR vchSig)).take (sigLenS vchSig))

/-- `IsDefinedHashtypeSignature`. -/
def isDefinedHashtypeSignature (vchSig : List UInt8) : Bool :=
  match vchSig.getLast? with
  | none => false
  | some last => decide (1 ≤ (last &&& 0x7f).toNat) && decide ((last &&& 0x7f).toNat ≤ 3)

/-- `CheckSignatureEncoding` of a script. -/
def checkSigEncoding (vchSig : List UInt8) (flags : ℕ) : Bool :=
  -- an empty signature is a compact way to provide an invalid one
  if hasFlag flags scriptVerifyAllowEmptySig && vchSig.isEmpty then true
  else if !isLowDERSignature vchSig then false
  else if !hasFlag flags scriptVerifyFixHashtype && !isDefinedHashtypeSignature vchSig then false
  else true

/-- `IsCompressedOrUncompressedPubKey`, which is `CheckPubKeyEncoding`. -/
def isCompressedOrUncompressedPubKey (vchPubKey : List UInt8) : Bool :=
  if vchPubKey.length < 33 then false
  else if vchPubKey.getD 0 0 == 0x04 then vchPubKey.length == 65
  else if vchPubKey.getD 0 0 == 0x02 || vchPubKey.getD 0 0 == 0x03 then vchPubKey.length == 33
  else false

/-! ### Reading numbers back -/

theorem and_7f {b : UInt8} (h : b.toNat < 0x80) :
    b &&& 0x7f = b ∧ (b ||| 0x80) &&& 0x7f = b ∧ 0x80 ≤ (b ||| 0x80).toNat := by
  have hall : ∀ n < 0x80, UInt8.ofNat n &&& 0x7f = UInt8.ofNat n ∧
      (UInt8.ofNat n ||| 0x80) &&& 0x7f = UInt8.ofNat n ∧
      0x80 ≤ (UInt8.ofNat n ||| 0x80).toNat := by
    decide
  have hb := hall b.toNat h
  rwa [UInt8.ofNat_toNat] at hb

theorem getLastD_getvch_lt (n : ℕ) : ((getvch n).getLastD 0).toNat < 0x80 := by
  unfold getvch
  simp only
  split_ifs with h
  · rw [getLastD_concat]
    decide
  · rw [getLastD_eq_getLast?]
    cases hlast : ((Nat.digits 256 n).map UInt8.ofNat).getLast? with
    | none => decide
    | some b => simpa [hlast] using h

theorem getvch_zero : getvch 0 = [] := by
  simp [getvch]

theorem getvch_ne_nil {n : ℕ} (h : 0 < n) : getvch n ≠ [] := by
  intro hnil
  have := ofBytes_getvch n
  rw [hnil] at this
  exact h.ne this

theorem dropLast_append_getLastD {vch : List UInt8} (h : vch ≠ []) :
    vch.dropLast ++ [vch.getLastD 0] = vch := by
  rw [getLastD_eq_getLast?, getLast?_eq_getLast_of_ne_nil h]
  exact dropLast_append_getLast h

/-- **A number is read back from its bytes.** -/
theorem bnSetvch_bnGetvch (n : ℤ) : bnSetvch (bnGetvch n) = n := by
  have hlt := getLastD_getvch_lt n.natAbs
  obtain ⟨hand, hor, hsign⟩ := and_7f hlt
  by_cases hzero : n = 0
  · subst hzero
    simp [bnGetvch, bnSetvch, getvch_zero, ofBytes]
  · have hne : getvch n.natAbs ≠ [] := getvch_ne_nil (by omega)
    unfold bnGetvch bnSetvch
    split_ifs with hneg
    · simp only [setSign, getLastD_concat, dropLast_concat, hor]
      rw [dropLast_append_getLastD hne, ofBytes_getvch, if_pos hsign]
      omega
    · simp only [hand]
      rw [dropLast_append_getLastD hne, ofBytes_getvch, if_neg (by omega)]
      omega

theorem bnGetvch_small {n : ℕ} (h0 : 0 < n) (h : n < 0x80) : bnGetvch n = [UInt8.ofNat n] := by
  have hdig : Nat.digits 256 n = [n] := digits_of_lt 256 n h0.ne' (by omega)
  rw [bnGetvch, if_neg (by omega), natAbs_natCast, getvch, hdig]
  simp
  omega

theorem length_getvch_le_of_lt {n k : ℕ} (h : n < 256 ^ k) : (getvch n).length ≤ k + 1 := by
  have hdig : (Nat.digits 256 n).length ≤ k := (digits_length_le_iff (by norm_num) n).mpr h
  unfold getvch
  simp only
  split_ifs <;> simp <;> omega

theorem length_setSign {vch : List UInt8} (h : vch ≠ []) : (setSign vch).length = vch.length := by
  have hpos := length_pos_iff.mpr h
  rw [setSign, length_append, length_dropLast, length_singleton]
  omega

theorem length_bnGetvch_le {n : ℤ} {k : ℕ} (h : n.natAbs < 256 ^ k) :
    (bnGetvch n).length ≤ k + 1 := by
  unfold bnGetvch
  split_ifs with hneg
  · rw [length_setSign (getvch_ne_nil (by omega))]
    exact length_getvch_le_of_lt h
  · exact length_getvch_le_of_lt h

theorem ofBytes_lt (b : List UInt8) : ofBytes b < 256 ^ b.length := by
  have hlt := ofDigits_lt_base_pow_length (b := 256) (l := b.map UInt8.toNat) (by norm_num) (by
    intro d hd
    obtain ⟨c, -, rfl⟩ := mem_map.mp hd
    exact c.toNat_lt)
  rwa [length_map] at hlt

theorem natAbs_bnSetvch_lt (vch : List UInt8) : (bnSetvch vch).natAbs < 256 ^ vch.length := by
  by_cases hnil : vch = []
  · subst hnil
    decide
  · have hlen : (vch.dropLast ++ [vch.getLastD 0 &&& 0x7f]).length = vch.length := by
      have hpos := length_pos_iff.mpr hnil
      rw [length_append, length_dropLast, length_singleton]
      omega
    have hlt := ofBytes_lt (vch.dropLast ++ [vch.getLastD 0 &&& 0x7f])
    rw [hlen] at hlt
    unfold bnSetvch
    simp only
    split_ifs
    · rwa [natAbs_neg, natAbs_natCast]
    · rwa [natAbs_natCast]

end Espers
