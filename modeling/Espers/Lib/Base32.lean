import Espers.Lib.BitCode

/-!
# Base 32

Bytes as characters that stand for five bits each.  The encoder and the decoder go from byte to byte
and from character to character, with the bits that are left over.

* `encodeWith`, `decodeWith` : both loops, for any alphabet.
* `encodeWith_eq`, `decodeWith_eq`, `code_sound` : they are the loops of a sound code.
-/

namespace Base32

open Nat

/-- The loop of the encoder: `mode` tells how many bits are in `left`. -/
def encodeLoop (letter : ℕ → Char) : ℕ → ℕ → List UInt8 → List Char
  | mode, left, [] =>
    if mode = 0 then []
    else letter left :: List.replicate ([0, 6, 4, 3, 1].getD mode 0) '='
  | mode, left, b :: rest =>
    let enc := b.toNat
    match mode with
    -- we have no bits
    | 0 => letter (enc >>> 3) :: encodeLoop letter 1 ((enc &&& 7) <<< 2) rest
    -- we have three bits
    | 1 => letter (left ||| enc >>> 6) :: letter (enc >>> 1 &&& 31) ::
        encodeLoop letter 2 ((enc &&& 1) <<< 4) rest
    -- we have one bit
    | 2 => letter (left ||| enc >>> 4) :: encodeLoop letter 3 ((enc &&& 15) <<< 1) rest
    -- we have four bits
    | 3 => letter (left ||| enc >>> 7) :: letter (enc >>> 2 &&& 31) ::
        encodeLoop letter 4 ((enc &&& 3) <<< 3) rest
    -- we have two bits
    | _ => letter (left ||| enc >>> 5) :: letter (enc &&& 31) :: encodeLoop letter 0 left rest

/-- Encode bytes with an alphabet. -/
def encodeWith (letter : ℕ → Char) (b : List UInt8) : List Char := encodeLoop letter 0 0 b

/-- The loop of the decoder, which stops at the first character that is not in the alphabet. -/
def decodeLoop (value : Char → Option ℕ) : ℕ → ℕ → List Char → List UInt8
  | _, _, [] => []
  | mode, left, c :: rest =>
    match value c with
    | none => []
    | some dec =>
      match mode with
      -- we have no bits and get 5
      | 0 => decodeLoop value 1 dec rest
      -- we have 5 bits and keep 2
      | 1 => UInt8.ofNat (left <<< 3 ||| dec >>> 2) :: decodeLoop value 2 (dec &&& 3) rest
      -- we have 2 bits and keep 7
      | 2 => decodeLoop value 3 (left <<< 5 ||| dec) rest
      -- we have 7 bits and keep 4
      | 3 => UInt8.ofNat (left <<< 1 ||| dec >>> 4) :: decodeLoop value 4 (dec &&& 15) rest
      -- we have 4 bits, and keep 1
      | 4 => UInt8.ofNat (left <<< 4 ||| dec >>> 1) :: decodeLoop value 5 (dec &&& 1) rest
      -- we have 1 bit, and keep 6
      | 5 => decodeLoop value 6 (left <<< 5 ||| dec) rest
      -- we have 6 bits, and keep 3
      | 6 => UInt8.ofNat (left <<< 2 ||| dec >>> 3) :: decodeLoop value 7 (dec &&& 7) rest
      -- we have 3 bits, and keep 0
      | _ => UInt8.ofNat (left <<< 5 ||| dec) :: decodeLoop value 0 left rest

/-- Decode characters of an alphabet. -/
def decodeWith (value : Char → Option ℕ) (s : List Char) : List UInt8 := decodeLoop value 0 0 s

/-! ### The code -/

open BitCode

/-- The step of the encoder. -/
def encodeStep : Step
  | 0, _, enc => ([enc >>> 3], 1, (enc &&& 7) <<< 2)
  | 1, left, enc => ([left ||| enc >>> 6, enc >>> 1 &&& 31], 2, (enc &&& 1) <<< 4)
  | 2, left, enc => ([left ||| enc >>> 4], 3, (enc &&& 15) <<< 1)
  | 3, left, enc => ([left ||| enc >>> 7, enc >>> 2 &&& 31], 4, (enc &&& 3) <<< 3)
  | _, left, enc => ([left ||| enc >>> 5, enc &&& 31], 0, left)

/-- The step of the decoder. -/
def decodeStep : Step
  | 0, _, dec => ([], 1, dec)
  | 1, left, dec => ([left <<< 3 ||| dec >>> 2], 2, dec &&& 3)
  | 2, left, dec => ([], 3, left <<< 5 ||| dec)
  | 3, left, dec => ([left <<< 1 ||| dec >>> 4], 4, dec &&& 15)
  | 4, left, dec => ([left <<< 4 ||| dec >>> 1], 5, dec &&& 1)
  | 5, left, dec => ([], 6, left <<< 5 ||| dec)
  | 6, left, dec => ([left <<< 2 ||| dec >>> 3], 7, dec &&& 7)
  | _, left, dec => ([left <<< 5 ||| dec], 0, left)

/-- How many `=` are behind the last letter, by the mode of the encoder. -/
def padding (mode : ℕ) : ℕ := [0, 6, 4, 3, 1].getD mode 0

/-- How many `=` are required, by the mode of the decoder. -/
def required : ℕ → Option ℕ
  | 0 => some 0
  | 2 => some 6
  | 4 => some 4
  | 5 => some 3
  | 7 => some 1
  | _ => none

/-- The code, for any alphabet. -/
def code (letter : ℕ → Char) (value : Char → Option ℕ) : Code where
  k := 5
  letter := letter
  table := value
  encodeStep := encodeStep
  padding := padding
  decodeStep := decodeStep
  required := required

variable {letter : ℕ → Char} {value : Char → Option ℕ}

theorem encodeLoop_eq (mode left : ℕ) (b : List UInt8) : encodeLoop letter mode left b =
    let r := run encodeStep mode left (b.map UInt8.toNat)
    r.1.map letter ++ if r.2.1 = 0 then []
      else letter r.2.2 :: List.replicate (padding r.2.1) '=' := by
  induction b generalizing mode left with
  | nil => rfl
  | cons c b ih =>
    rcases mode with _ | _ | _ | _ | mode <;> simp only [encodeLoop, ih] <;> rfl

theorem encodeWith_eq (b : List UInt8) : encodeWith letter b = (code letter value).encode b :=
  encodeLoop_eq 0 0 b

theorem decodeLoop_eq (mode left : ℕ) (s : List Char) :
    decodeLoop value mode left s = ((code letter value).decodeLoop mode left s).1.map UInt8.ofNat := by
  induction s generalizing mode left with
  | nil => rfl
  | cons c s ih =>
    rw [decodeLoop, Code.decodeLoop]
    cases h : (code letter value).table c with
    | none => rw [show value c = none from h]; rfl
    | some dec =>
      rw [show value c = some dec from h]
      rcases mode with _ | _ | _ | _ | _ | _ | _ | mode <;> simp only [ih] <;> rfl

theorem decodeWith_eq (s : List Char) : decodeWith value s = ((code letter value).decode s).1 :=
  decodeLoop_eq 0 0 s

/-- How many bits wait in a mode of the encoder. -/
def waitEncode : ℕ → ℕ
  | 1 => 3
  | 2 => 1
  | 3 => 4
  | 4 => 2
  | _ => 0

/-- How many bits wait in a mode of the decoder. -/
def waitDecode : ℕ → ℕ
  | 1 => 5
  | 2 => 2
  | 3 => 7
  | 4 => 4
  | 5 => 1
  | 6 => 6
  | 7 => 3
  | _ => 0

theorem encodeStep_steps : Steps encodeStep 8 5 5 waitEncode fun mode => 5 - waitEncode mode where
  modes := by decide
  fresh _ _ := rfl
  kept mode hmode p hp x hx := by
    interval_cases mode <;> norm_num [waitEncode] at hp hx <;>
      refine regrouped_of (by simp [encodeStep]) ?_ rfl ?_ ?_ <;>
      simp (disch := omega) [encodeStep, waitEncode, shiftLeft_or, and_mask, Radix.value,
        Nat.ofDigits, Nat.shiftRight_eq_div_pow] <;> omega

theorem decodeStep_steps : Steps decodeStep 5 8 8 waitDecode fun _ => 0 where
  modes := by decide
  fresh _ _ := rfl
  kept mode hmode p hp x hx := by
    interval_cases mode <;> norm_num [waitDecode] at hp hx <;>
      refine regrouped_of (by simp [decodeStep]) ?_ rfl ?_ ?_ <;>
      simp (disch := omega) [decodeStep, waitDecode, shiftLeft_or, and_mask, Radix.value,
        Nat.shiftRight_eq_div_pow] <;> omega

/-- **The code is sound for an alphabet of 32 letters**, without `=` and the null character. -/
theorem code_sound (hletter : ∀ v < 32, value (letter v) = some v)
    (hlt : ∀ c, ∀ v ∈ value c, v < 32) (hpad : value '=' = none ∧ value '\x00' = none) :
    (code letter value).Sound 5 8 waitEncode waitDecode where
  k_le := show 5 ≤ 8 by decide
  table_letter := hletter
  table_lt := hlt
  table_pad := hpad
  encodes := encodeStep_steps
  decodes := decodeStep_steps
  required_zero := rfl
  encodeHeld := show ∀ mode < 5, mode ≠ 0 → 0 < waitEncode mode ∧ waitEncode mode < 5 ∧
    ∀ mode' < 8, waitEncode mode + waitDecode mode' = 5 →
      required mode' = some (padding mode) by decide
  decodeHeld := show ∀ mode < 8, waitDecode mode < 8 ∧ (waitDecode mode = 0 → mode = 0) ∧
    (required mode = none ∨ waitDecode mode < 5) ∧ (required mode = some 0 → mode = 0) by decide

end Base32
