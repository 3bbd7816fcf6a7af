import Espers.Net.Address

/-!
# Base 64 and base 32

`EncodeBase64` and `DecodeBase64` are loops like those in base 32 (`Base32`), with other tables.  A
decoder tells by `pfInvalid` whether the tail of the text is one that the encoder makes.

* `base64_sound` : the tables fit.
* `base64_base32_roundTrip` : **encodings are decoded to what was encoded, and valid texts are the
  encodings of what they are decoded to.**
-/

namespace Espers

open BitCode List

/-- `pbase64`. -/
def pbase64 : List Char :=
  ['A', 'B', 'C', 'D', 'E', 'F', 'G', 'H', 'I', 'J', 'K', 'L', 'M', 'N', 'O', 'P', 'Q', 'R',
    'S', 'T', 'U', 'V', 'W', 'X', 'Y', 'Z', 'a', 'b', 'c', 'd', 'e', 'f', 'g', 'h', 'i', 'j',
    'k', 'l', 'm', 'n', 'o', 'p', 'q', 'r', 's', 't', 'u', 'v', 'w', 'x', 'y', 'z', '0', '1',
    '2', '3', '4', '5', '6', '7', '8', '9', '+', '/']

/-- `decode64_table`. -/
def decode64 (c : Char) : Option ℕ :=
  if c = '+' then some 62
  else if c = '/' then some 63
  else if '0' ≤ c ∧ c ≤ '9' then some (c.toNat - 48 + 52)
  else if 'A' ≤ c ∧ c ≤ 'Z' then some (c.toNat - 65)
  else if 'a' ≤ c ∧ c ≤ 'z' then some (c.toNat - 97 + 26)
  else none

/-- The step of `EncodeBase64`. -/
def encode64Step : Step
  -- we have no bits
  | 0, _, enc => ([enc >>> 2], 1, (enc &&& 3) <<< 4)
  -- we have two bits
  | 1, left, enc => ([left ||| enc >>> 4], 2, (enc &&& 15) <<< 2)
  -- we have four bits
  | _, left, enc => ([left ||| enc >>> 6, enc &&& 63], 0, left)

/-- The step of `DecodeBase64`. -/
def decode64Step : Step
  -- we have no bits and get 6
  | 0, _, dec => ([], 1, dec)
  -- we have 6 bits and keep 4
  | 1, left, dec => ([left <<< 2 ||| dec >>> 4], 2, dec &&& 15)
  -- we have 4 bits and get 6, we keep 2
  | 2, left, dec => ([left <<< 4 ||| dec >>> 2], 3, dec &&& 3)
  -- we have 2 bits and get 6
  | _, left, dec => ([left <<< 6 ||| dec], 0, left)

/-- How many `=` are behind the last letter, by the mode of `EncodeBase64`. -/
def padding64 (mode : ℕ) : ℕ := if mode = 1 then 2 else 1

/-- How many `=` `DecodeBase64` requires, by its mode. -/
def required64 : ℕ → Option ℕ
  | 0 => some 0
  | 1 => none
  | 2 => some 2
  | _ => some 1

/-- The code of `EncodeBase64` and `DecodeBase64`. -/
def base64 : Code where
  k := 6
  letter v := pbase64.getD v '='
  table := decode64
  encodeStep := encode64Step
  padding := padding64
  decodeStep := decode64Step
  required := required64

/-- `EncodeBase64`. -/
def encodeBase64 (b : List UInt8) : List Char := base64.encode b

/-- `DecodeBase64`, with `pfInvalid`. -/
def decodeBase64 (s : List Char) : List UInt8 × Bool := base64.decode s

/-- `DecodeBase32`, with `pfInvalid`. -/
def checkBase32 (s : List Char) : List UInt8 × Bool :=
  let r := base32.decode s
  (decodeBase32 s, r.2)

/-- How many bits wait in a mode of `EncodeBase64`. -/
def waitEncode64 : ℕ → ℕ
  | 1 => 2
  | 2 => 4
  | _ => 0

/-- How many bits wait in a mode of `DecodeBase64`. -/
def waitDecode64 : ℕ → ℕ
  | 1 => 6
  | 2 => 4
  | 3 => 2
  | _ => 0

theorem encode64Step_steps :
    Steps encode64Step 8 6 3 waitEncode64 fun mode => 6 - waitEncode64 mode where
  modes := by decide
  fresh _ _ := rfl
  kept mode hmode p hp x hx := by
    interval_cases mode <;> norm_num [waitEncode64] at hp hx <;>
      refine regrouped_of (by simp [encode64Step]) ?_ rfl ?_ ?_ <;>
      simp (disch := omega) [encode64Step, waitEncode64, shiftLeft_or, and_mask, Radix.value,
        Nat.ofDigits, Nat.shiftRight_eq_div_pow] <;> omega

theorem decode64Step_steps : Steps decode64Step 6 8 4 waitDecode64 fun _ => 0 where
  modes := by decide
  fresh _ _ := rfl
  kept mode hmode p hp x hx := by
    interval_cases mode <;> norm_num [waitDecode64] at hp hx <;>
      refine regrouped_of (by simp [decode64Step]) ?_ rfl ?_ ?_ <;>
      simp (disch := omega) [decode64Step, waitDecode64, shiftLeft_or, and_mask, Radix.value,
        Nat.shiftRight_eq_div_pow] <;> omega

theorem decode64_spec (c : Char) : ∀ v ∈ decode64 c, v < 64 ∧ pbase64.getD v '=' = c := by
  have hall : ∀ n < 128, ∀ v ∈ decode64 (Char.ofNat n),
      v < 64 ∧ pbase64.getD v '=' = Char.ofNat n := by decide +kernel
  intro v hv
  have hlt : c.toNat < 128 := by
    rw [decode64] at hv
    split_ifs at hv with h h h h h
    iterate 2 exact h ▸ by decide
    iterate 3 exact toNat_lt_of_le h.2 (by decide)
    cases hv
  have hc := hall c.toNat hlt v
  rw [Char.ofNat_toNat] at hc
  exact hc hv

theorem base64_sound : base64.Sound 3 4 waitEncode64 waitDecode64 where
  k_le := by decide
  table_letter := by decide
  table_lt c v hv := (decode64_spec c v hv).1
  table_pad := by decide
  encodes := encode64Step_steps
  decodes := decode64Step_steps
  required_zero := rfl
  encodeHeld := by decide
  decodeHeld := by decide

theorem checkBase32_eq (s : List Char) : checkBase32 s = base32.decode s := by
  rw [checkBase32, decodeBase32_eq]

theorem letters64 (s : List Char) : (base64.values s).map base64.letter = base64.alphabetPart s :=
  (Code.letters_eq (fun c v hv => (decode64_spec c v hv).2) s).trans (map_id _)

theorem letters32 (s : List Char) :
    (base32.values s).map base32.letter = (base32.alphabetPart s).map Char.toLower :=
  Code.letters_eq (fun c v hv => (decode32_spec c v hv).2) s

/-- **Encodings are decoded to what was encoded, and valid texts are the encodings of what they are
decoded to**, up to the padding and what is behind it, and up to the case in base 32. -/
theorem base64_base32_roundTrip : (∀ b, decodeBase64 (encodeBase64 b) = (b, false)) ∧
    (∀ b, checkBase32 (encodeBase32 b) = (b, false)) ∧
    (∀ s, (decodeBase64 s).2 = false → ∃ n, encodeBase64 (decodeBase64 s).1 =
      base64.alphabetPart s ++ replicate n '=') ∧
    (∀ s, (checkBase32 s).2 = false → ∃ n, encodeBase32 (checkBase32 s).1 =
      (base32.alphabetPart s).map Char.toLower ++ replicate n '=') ∧
    (∀ s t, (decodeBase64 s).2 = false → (decodeBase64 t).2 = false →
      (decodeBase64 s).1 = (decodeBase64 t).1 → base64.alphabetPart s = base64.alphabetPart t) ∧
    ∀ s t, (checkBase32 s).2 = false → (checkBase32 t).2 = false →
      (checkBase32 s).1 = (checkBase32 t).1 →
      (base32.alphabetPart s).map Char.toLower = (base32.alphabetPart t).map Char.toLower := by
  simp only [checkBase32_eq, encodeBase32_eq]
  refine ⟨base64_sound.decode_encode, base32_sound.decode_encode, fun s hs => ?_, fun s hs => ?_,
    fun s t hs ht he => ?_, fun s t hs ht he => ?_⟩
  · rw [← letters64 s]
    exact base64_sound.encode_decode hs
  · rw [← letters32 s]
    exact base32_sound.encode_decode hs
  · rw [← letters64 s, ← letters64 t]
    exact base64_sound.letters_inj hs ht he
  · rw [← letters32 s, ← letters32 t]
    exact base32_sound.letters_inj hs ht he

end Espers
