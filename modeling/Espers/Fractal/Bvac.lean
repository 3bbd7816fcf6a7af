import Espers.Fractal.RoundTrip
import Mathlib.Data.List.GetD

/-!
# Coloured binary data

`enCode` writes each character of a text as four pairs of bits, each pair as a pixel of one of four
colours, into an image of 16 × 16 pixels that is white after the text.  `deCode` takes the channels
of an image for low or high, and reads 34 characters.

The functions have no result when they read outside an array or a text or follow a null pointer; the
buffers on the stack are taken to be large enough.  The image in the file is what `load_image` makes
of it; writing it, and the messages, are left out.

* `enCode_eq` : what the encoder writes, which has zero channels as the character 0, that is 48.
* `matchDeCode_eq` : what the decoder makes of pixels of the four colours.
* `deCode_degraded` : the decoder reads the first 34 characters back, with `0` for those that are
  missing.
* `bvac_survives` : **a text of 34 letters and digits survives** any loss that keeps low channels
  low and high ones high.
* `deCode_faithful` : **the outcome is that of the image alone** if it has the 136 pixels that are
  read, in colours of the table.
-/

namespace Espers

open Tokens List Function Nat
open Option hiding map

/-! ### The tables -/

/-- `Bit_String`. -/
def bitString : List String := ["11", "00", "10", "01"]

/-- `Color_String`: black, white, blue, red. -/
def colorString : List String := ["000", "255255255", "00255", "25500"]

/-- `Color_String_TEMP_FORMAT_WORKAROUND`. -/
def colorStringTempFormatWorkaround : List String :=
  ["0 0 0", "255 255 255", "0 0 255", "255 0 0"]

/-- `BVAC_Character_String`, which has the characters of `Character_String` in the same order. -/
def bvacCharacterString : List String := characterString

/-- `BVAC_Conversion_String`. -/
def bvacConversionString : List String := [
  "01 00 00 01", "01 10 00 01", "01 00 00 10", "01 10 00 10", "01 00 00 11", "01 10 00 11",
  "01 00 01 00", "01 10 01 00", "01 00 01 01", "01 10 01 01", "01 00 01 10", "01 10 01 10",
  "01 00 01 11", "01 10 01 11", "01 00 10 00", "01 10 10 00", "01 00 10 01", "01 10 10 01",
  "01 00 10 10", "01 10 10 10", "01 00 10 11", "01 10 10 11", "01 00 11 00", "01 10 11 00",
  "01 00 11 01", "01 10 11 01", "01 00 11 10", "01 10 11 10", "01 00 11 11", "01 10 11 11",
  "01 01 00 00", "01 11 00 00", "01 01 00 01", "01 11 00 01", "01 01 00 10", "01 11 00 10",
  "01 01 00 11", "01 11 00 11", "01 01 01 00", "01 11 01 00", "01 01 01 01", "01 11 01 01",
  "01 01 01 10", "01 11 01 10", "01 01 01 11", "01 11 01 11", "01 01 10 00", "01 11 10 00",
  "01 01 10 01", "01 11 10 01", "01 01 10 10", "01 11 10 10", "00 00 00 00", "00 00 00 01",
  "00 00 00 10", "00 00 00 11", "00 00 01 00", "00 00 01 01", "00 00 01 10", "00 00 01 11",
  "00 00 10 00", "00 00 10 01"]

/-- The text at a position of a table. -/
def textAt (table : List String) (i : ℕ) : Option Text := table[i]?.map String.toList

/-- The first position below 4 with a match, or 4. -/
def detect4 (found : ℕ → Bool) : ℕ := ((List.range 4).find? found).getD 4

/-! ### Encoding -/

/-- The loop of `enCode` over the letters, from `letter_total_word` on. -/
def enCodeLetters : ℕ → Text → (ℕ → Text) → Option (ℕ → Text)
  | _, [], encodingLetterCount => some encodingLetterCount
  | i, c :: letters, encodingLetterCount => do
    let encodedString ← textAt bvacConversionString
      (detect fun k => textAt bvacCharacterString k = some [c])
    enCodeLetters (i + 1) letters (update encodingLetterCount i encodedString)

/-- The channels of a pixel. -/
structure Rgb where
  r : UInt8
  g : UInt8
  b : UInt8
  deriving DecidableEq, Repr

/-- Three channels in the data of an image. -/
def Rgb.channels (p : Rgb) : List UInt8 := [p.r, p.g, p.b]

/-- `r`, `g`, `b` before the first pixel, and those of blank data. -/
def Rgb.blank : Rgb := ⟨255, 255, 255⟩

/-- A character as a channel. -/
def channelOf (s : Text) (i : ℕ) : UInt8 := UInt8.ofNat (s.getD i '\x00').toNat

/-- The channels that `printCODED` sets for a `Color_String`: digits are taken as characters. -/
def setColor (RGB_str : Text) : Rgb :=
  if RGB_str.length > 3 then
    if RGB_str.length > 5 then ⟨255, 255, 255⟩
    else if RGB_str.getD 0 '\x00' = '2' then ⟨255, channelOf RGB_str 3, channelOf RGB_str 4⟩
    else ⟨channelOf RGB_str 0, channelOf RGB_str 1, 255⟩
  else ⟨channelOf RGB_str 0, channelOf RGB_str 1, channelOf RGB_str 2⟩

/-- The channels for a pair of bits; they stay when there is no match. -/
def matchBits (Bit_match_str : Text) (rgb : Rgb) : Rgb :=
  match (List.range 4).find? fun k => textAt bitString k = some Bit_match_str with
  | none => rgb
  | some k => ((textAt colorString k).map setColor).getD rgb

/-- The loop over the pairs of bits of a character; `left` pairs are to come. -/
def printBatch : ℕ → Option (Text × Text) → Rgb → List UInt8 → Option (Rgb × List UInt8)
  | 0, _, rgb, data => some (rgb, data)
  | _ + 1, none, _, _ => none
  | left + 1, some (ch_input_position, rest), rgb, data =>
    let rgb := matchBits ch_input_position rgb
    printBatch left (next ' ' rest) rgb (data ++ rgb.channels)

/-- One round of the loop of `printCODED`: the channels, the data, and the position after it. -/
def printRound (array_input : Text) (logic_dataend : Bool) (rgb : Rgb) (data : List UInt8)
    (logic_position : ℕ) : Option (Rgb × List UInt8 × ℕ) :=
  if logic_dataend then some (Rgb.blank, data ++ Rgb.blank.channels, logic_position + 1)
  else (printBatch 4 (next ' ' array_input) rgb data).map fun p => (p.1, p.2, logic_position + 4)

/-- The loop of `printCODED`; `fuel` is a bound on its rounds. -/
def printLoop (encodingLetterCount : ℕ → Text) (logic_threshold logic_saturation : ℕ) :
    ℕ → ℕ → ℕ → Bool → Rgb → List UInt8 → Option (List UInt8)
  | 0, _, _, _, _, data => some data
  | fuel + 1, logic_position, set_position, logic_dataend, rgb, data =>
    if logic_position < logic_threshold then do
      let (rgb, data, logic_position) ←
        printRound (encodingLetterCount set_position) logic_dataend rgb data logic_position
      let more := set_position < logic_saturation
      printLoop encodingLetterCount logic_threshold logic_saturation fuel logic_position
        (if more then set_position + 1 else set_position) (logic_dataend || !more) rgb data
    else some data

/-- `printCODED`: the data of the image; each round sets a pixel at least. `write_image` is left
out: it aborts at `stbi_image_free(&data)`, after the data is complete. -/
def printCODED (encodingLetterCount : ℕ → Text) (char_TOTAL w h : ℕ) : Option (List UInt8) :=
  printLoop encodingLetterCount (w * h) (char_TOTAL - 1) (w * h) 0 0 false Rgb.blank []

/-- `enCode`: the data of the image; the text has a first character. -/
def enCode (encodingLetterCount : ℕ → Text) (input_mydata : Text) : Option (List UInt8) :=
  if input_mydata = [] then none
  else do
    let encodingLetterCount ← enCodeLetters 0 input_mydata encodingLetterCount
    printCODED encodingLetterCount input_mydata.length 16 16

/-! ### Decoding -/

/-- What `load_image` reads from a file. -/
structure LoadedImage where
  image : List UInt8
  width : ℕ
  height : ℕ
  /-- The channels of a pixel. -/
  n : ℕ

/-- The variables of the decoder that keep their values. -/
structure BvacGlobals where
  thatdata : Text
  decodingLetterCount : ℕ → Text
  decodingBitsCount : ℕ → Text
  bvacRun : Bool

/-- "Handle RGB degradation". -/
def absolute (c : ℕ) : ℕ := if c < 90 then 0 else if c > 100 then 255 else c

/-- `str_r + bvacBUF + str_g + bvacBUF + str_b`. -/
def pixelText (r g b : UInt8) : Text :=
  (toString (absolute r.toNat)).toList ++ [' '] ++ (toString (absolute g.toNat)).toList ++ [' '] ++
    (toString (absolute b.toNat)).toList

/-- The loop of `deCode` over the pixels; `left` pixels are to come. -/
def readPixels (image : List UInt8) (RGBA : ℕ) : ℕ → ℕ → ℕ → (ℕ → Text) → Option (ℕ → Text)
  | 0, _, _, decodingLetterCount => some decodingLetterCount
  | left + 1, positionLOOP, index, decodingLetterCount => do
    let r ← image[index + 0]?
    let g ← image[index + 1]?
    let b ← image[index + 2]?
    readPixels image RGBA left (positionLOOP + 1) (index + RGBA)
      (update decodingLetterCount positionLOOP (pixelText r g b))

/-- The loop of `match_deCode` over the pixels of a character: the bits, and the next text. -/
def matchGroup (decodingLetterCount : ℕ → Text) (letter_loop_total : ℕ) :
    ℕ → ℕ → Text → Text → Option (Text × Text)
  | 0, _, str, Bitmatch_String => some (Bitmatch_String, str)
  | left + 1, letter_total_word, str, Bitmatch_String => do
    let bits ← textAt bitString
      (detect4 fun k => textAt colorStringTempFormatWorkaround k = some str)
    matchGroup decodingLetterCount letter_loop_total left (letter_total_word + 1)
      (decodingLetterCount (letter_total_word + 1))
      (if letter_total_word = letter_loop_total - 1 then Bitmatch_String ++ bits
        else Bitmatch_String ++ (bits ++ [' ']))

/-- The first loop of `match_deCode`; `left` characters are to come. -/
def matchGroups (decodingLetterCount : ℕ → Text) : ℕ → ℕ → ℕ → Text → (ℕ → Text) → Option (ℕ → Text)
  | 0, _, _, _, decodingBitsCount => some decodingBitsCount
  | left + 1, bits_match_loop, letter_total_word, str, decodingBitsCount => do
    let (Bitmatch_String, str) ←
      matchGroup decodingLetterCount (letter_total_word + 4) 4 letter_total_word str []
    matchGroups decodingLetterCount left (bits_match_loop + 1) (letter_total_word + 4) str
      (update decodingBitsCount bits_match_loop Bitmatch_String)

/-- What a cluster of bits adds to `Decoded_String`. -/
def decodedCharacter (cluster : Text) : Text :=
  match (List.range 62).find? fun k => textAt bvacConversionString k = some cluster with
  | none => []
  | some k => (textAt bvacCharacterString k).getD []

/-- `match_deCode`. -/
def matchDeCode (input_thatdata : Text) (f : BvacGlobals) : Option BvacGlobals := do
  let decodingBitsCount ←
    matchGroups f.decodingLetterCount 34 0 0 input_thatdata f.decodingBitsCount
  some { f with
    decodingBitsCount := decodingBitsCount
    thatdata := (List.range 34).flatMap fun k => decodedCharacter (decodingBitsCount k)
    bvacRun := true }

/-- `deCode`, for what `load_image` reads. -/
def deCode (file : Option LoadedImage) (f : BvacGlobals) : Option BvacGlobals :=
  let f := { f with bvacRun := false }
  match file with
  | none => some f
  | some i =>
    if i.width * i.height > 256 ∨ i.width ≠ i.height then some f
    else if i.n = 4 then some f
    else do
      let decodingLetterCount ←
        readPixels i.image i.n (i.width * i.height) 0 0 f.decodingLetterCount
      matchDeCode (decodingLetterCount 0) { f with decodingLetterCount := decodingLetterCount }

/-! ### Bits and colours -/

/-- The text of a pair of bits. -/
def bitsText (j : ℕ) : Text := (textAt bitString j).getD []

/-- The pixel of a pair of bits. -/
def colorAt (j : ℕ) : Rgb := ((textAt colorString j).map setColor).getD Rgb.blank

/-- The text of a pixel as the decoder writes it. -/
def colorText (j : ℕ) : Text := (textAt colorStringTempFormatWorkaround j).getD []

/-- The text of four pairs of bits. -/
def joinBits (a b c d : ℕ) : Text :=
  bitsText a ++ ' ' :: (bitsText b ++ ' ' :: (bitsText c ++ ' ' :: bitsText d))

/-- The position of a pair of bits in the table. -/
def bitsPosition (v : ℕ) : ℕ := [1, 3, 2, 0].getD v 0

/-- The number that is written for a character: the code of a letter, the value of a digit. -/
def bitsValue (c : Char) : ℕ := if c.isDigit then c.toNat - 48 else c.toNat

/-- The pairs of bits of a character, by their positions in the table. -/
def pairsOf (c : Char) : List ℕ :=
  [bitsPosition (bitsValue c / 64 % 4), bitsPosition (bitsValue c / 16 % 4),
    bitsPosition (bitsValue c / 4 % 4), bitsPosition (bitsValue c % 4)]

/-- The text of the pairs of bits of a character. -/
def encoded (c : Char) : Text :=
  joinBits (bitsPosition (bitsValue c / 64 % 4)) (bitsPosition (bitsValue c / 16 % 4))
    (bitsPosition (bitsValue c / 4 % 4)) (bitsPosition (bitsValue c % 4))

theorem conversions_eq : bvacConversionString.map String.toList =
    characterString.map fun name => encoded (name.toList.headD 'A') := by
  decide

theorem conversion_at (i : ℕ) : textAt bvacConversionString i =
    (characterAt i).map fun name => encoded (name.headD 'A') := by
  rw [textAt, ← getElem?_map, conversions_eq, getElem?_map, characterAt, Option.map_map]
  rfl

theorem bits_checked : ∀ j < 4, (textAt bitString j = some (bitsText j) ∧
      (bitsText j).length = 2 ∧ ' ' ∉ bitsText j) ∧
    (((List.range 4).find? fun k => textAt bitString k = some (bitsText j)) = some j ∧
      textAt colorString j = some ((colorString.getD j "").toList)) ∧
    (detect4 fun k => textAt colorStringTempFormatWorkaround k = some (colorText j)) = j ∧
    colorText j = pixelText (colorAt j).r (colorAt j).g (colorAt j).b ∧
      (colorAt j).channels.all (fun w => w.toNat < 90 ∨ 100 < w.toNat) = true := by
  decide

theorem bitsText_injOn : ∀ v < 4, ∀ w < 4,
    bitsText (bitsPosition v) = bitsText (bitsPosition w) → v = w := by
  decide

section

variable (j : ℕ) (hj : j < 4)
include j hj

theorem length_bitsText : (bitsText j).length = 2 :=
  (bits_checked j hj).1.2.1

theorem bitsText_spec : textAt bitString j = some (bitsText j) ∧
    bitsText j ≠ [] ∧ ' ' ∉ bitsText j := by
  obtain ⟨htext, hlen, hsep⟩ := (bits_checked j hj).1
  exact ⟨htext, ne_nil_of_length_pos (by omega), hsep⟩

theorem find_bits :
    ((List.range 4).find? fun k => textAt bitString k = some (bitsText j)) = some j ∧
      textAt colorString j = some ((colorString.getD j "").toList) :=
  (bits_checked j hj).2.1

theorem detect4_colorText :
    (detect4 fun k => textAt colorStringTempFormatWorkaround k = some (colorText j)) = j :=
  (bits_checked j hj).2.2.1

theorem colorAt_spec : colorText j = pixelText (colorAt j).r (colorAt j).g (colorAt j).b ∧
      ∀ w ∈ (colorAt j).channels, w.toNat < 90 ∨ 100 < w.toNat := by
  obtain ⟨-, -, -, htext, hall⟩ := bits_checked j hj
  exact ⟨htext, fun w hw => of_decide_eq_true (all_eq_true.1 hall w hw)⟩

end

variable {c : Char} {s : Text} {rgb : Rgb} {data : List UInt8}

/-! ### Letters and digits -/

theorem bitsPosition_lt (v : ℕ) : bitsPosition v < 4 := by
  rcases v with _ | _ | _ | _ | v <;> simp [bitsPosition]

theorem alphanum_cases (hc : c.isAlphanum = true) : c.isDigit = true ∧ 48 ≤ c.toNat ∧ c.toNat ≤ 57 ∨
      c.isDigit = false ∧ 65 ≤ c.toNat ∧ c.toNat ≤ 122 := by
  cases hdigit : c.isDigit with
  | true => exact .inl ⟨rfl, Char.isDigit_iff_toNat.1 hdigit⟩
  | false =>
    rw [Char.isAlphanum, hdigit, Bool.or_false] at hc
    change (decide (c.val ≥ 65 ∧ c.val ≤ 90) || decide (c.val ≥ 97) && decide (c.val ≤ 122)) =
      true at hc
    refine .inr ⟨rfl, ?_⟩
    change 65 ≤ c.val.toNat ∧ c.val.toNat ≤ 122
    simp only [Bool.or_eq_true, Bool.and_eq_true, decide_eq_true_eq,
      UInt32.le_iff_toNat_le, UInt32.reduceToNat] at hc
    omega

theorem bitsValue_lt (hc : c.isAlphanum = true) : bitsValue c < 256 := by
  unfold bitsValue
  rcases alphanum_cases hc with ⟨-, h1, h2⟩ | ⟨-, h1, h2⟩ <;> split_ifs <;> omega

theorem bitsValue_inj {d : Char} (hc : c.isAlphanum = true) (hd : d.isAlphanum = true)
    (h : bitsValue c = bitsValue d) : c = d := by
  refine Char.toNat_inj.1 ?_
  unfold bitsValue at h
  rcases alphanum_cases hc with ⟨hdigit, h1, h2⟩ | ⟨hdigit, h1, h2⟩ <;>
    rcases alphanum_cases hd with ⟨hdigit', h1', h2'⟩ | ⟨hdigit', h1', h2'⟩ <;>
    simp only [hdigit, hdigit', if_true, if_false, Bool.false_eq_true] at h <;> omega

theorem encoded_inj {d : Char} (hc : c.isAlphanum = true) (hd : d.isAlphanum = true)
    (h : encoded c = encoded d) : c = d := by
  have hlen : ∀ v w, (bitsText (bitsPosition v)).length = (bitsText (bitsPosition w)).length :=
    fun v w => by rw [length_bitsText _ (bitsPosition_lt v), length_bitsText _ (bitsPosition_lt w)]
  obtain ⟨h1, h⟩ := append_inj h (hlen _ _)
  obtain ⟨h2, h⟩ := append_inj (cons.inj h).2 (hlen _ _)
  obtain ⟨h3, h⟩ := append_inj (cons.inj h).2 (hlen _ _)
  have h4 := (cons.inj h).2
  have e1 := bitsText_injOn _ (mod_lt _ (by decide)) _ (mod_lt _ (by decide)) h1
  have e2 := bitsText_injOn _ (mod_lt _ (by decide)) _ (mod_lt _ (by decide)) h2
  have e3 := bitsText_injOn _ (mod_lt _ (by decide)) _ (mod_lt _ (by decide)) h3
  have e4 := bitsText_injOn _ (mod_lt _ (by decide)) _ (mod_lt _ (by decide)) h4
  have hlt := bitsValue_lt hc
  have hlt' := bitsValue_lt hd
  exact bitsValue_inj hc hd (by omega)

/-- What the tables say of a letter or digit. -/
theorem encoded_spec (hc : c.isAlphanum = true) :
    textAt bvacConversionString (detect fun k => textAt bvacCharacterString k = some [c]) =
        some (encoded c) ∧
      decodedCharacter (encoded c) = [c] := by
  obtain ⟨⟨i, hdetect, hchar, -⟩, -⟩ := code_spec hc
  have hlook : (detect fun k => textAt bvacCharacterString k = some [c]) = i := hdetect
  have hi := lt_of_characterAt hchar
  have hconv : textAt bvacConversionString i = some (encoded c) := by
    rw [conversion_at, hchar]
    rfl
  -- the text is found where the character is
  have hfind : (List.range 62).find? (fun k => textAt bvacConversionString k = some (encoded c)) =
      some i := by
    rw [find?_range_eq_some]
    refine ⟨by simpa using hconv, mem_range.2 hi, fun j hj => ?_⟩
    rw [Bool.not_eq_true', decide_eq_false_iff_not, conversion_at]
    intro heq
    obtain ⟨name, hname, hencoded⟩ := map_eq_some_iff.1 heq
    obtain ⟨d, rfl, hd⟩ := of_characterAt hname
    obtain rfl : d = c := encoded_inj hd hc hencoded
    have hsame := inj_on_of_nodup_map nodup_characters (mem_range.2 (hj.trans hi))
      (mem_range.2 hi) (hname.trans hchar.symm)
    omega
  refine ⟨by rw [hlook, hconv], ?_⟩
  rw [decodedCharacter, hfind]
  exact congrArg (Option.getD · []) hchar

/-! ### What the encoder writes -/

variable {j : ℕ}

theorem matchBits_bitsText (hj : j < 4) : matchBits (bitsText j) rgb = colorAt j := by
  obtain ⟨hfind, hcolor⟩ := find_bits j hj
  rw [matchBits, hfind, colorAt]
  simp only [hcolor]
  rfl

theorem next_bitsText (hj : j < 4) (rest : Text) :
    next ' ' (bitsText j ++ ' ' :: rest) = some (bitsText j, rest) := by
  obtain ⟨-, hne, hsep⟩ := bitsText_spec j hj
  exact next_append_cons hne hsep

/-- The channels of a list of colours. -/
def channelsOf (colors : List ℕ) : List UInt8 := colors.flatMap fun j => (colorAt j).channels

theorem printBatch_join {a b e d : ℕ} (ha : a < 4) (hb : b < 4) (he : e < 4) (hd : d < 4) :
    printBatch 4 (next ' ' (joinBits a b e d)) rgb data =
      some (colorAt d, data ++ channelsOf [a, b, e, d]) := by
  obtain ⟨-, hne, hsep⟩ := bitsText_spec d hd
  rw [joinBits, next_bitsText ha, printBatch, next_bitsText hb, printBatch, next_bitsText he,
    printBatch, next_self hne hsep, printBatch, printBatch, matchBits_bitsText ha,
    matchBits_bitsText hb, matchBits_bitsText he, matchBits_bitsText hd]
  simp [channelsOf]

theorem enCodeLetters_eq (hs : Plain s) (i : ℕ) (enc : ℕ → Text) : ∃ enc',
    enCodeLetters i s enc = some enc' ∧ (∀ j < i, enc' j = enc j) ∧
      ∀ k c, s[k]? = some c → enc' (i + k) = encoded c := by
  induction s generalizing i enc with
  | nil => exact ⟨enc, rfl, fun _ _ => rfl, by simp⟩
  | cons c s ih =>
    obtain ⟨enc', henc, hbefore, hafter⟩ := ih hs.tail (i + 1) (update enc i (encoded c))
    refine ⟨enc', ?_, fun j hj => ?_, ?_⟩
    · rw [enCodeLetters, (encoded_spec (hs c (.head _))).1]
      exact henc
    · rw [hbefore j (by omega), update_of_ne (by omega)]
    · rintro (_ | k) c' hget
      · cases hget
        rw [Nat.add_zero, hbefore i (by omega), update_self]
      · rw [← hafter k c' hget]
        congr 1
        omega

variable {enc : ℕ → Text}

theorem printLoop_succ
    {threshold saturation fuel position setPosition position' : ℕ} {dataend : Bool} {rgb' : Rgb}
    {data' : List UInt8} (hlt : position < threshold)
    (hround : printRound (enc setPosition) dataend rgb data position =
      some (rgb', data', position')) :
    printLoop enc threshold saturation (fuel + 1) position setPosition dataend rgb data =
      printLoop enc threshold saturation fuel position'
        (if setPosition < saturation then setPosition + 1 else setPosition)
        (dataend || !decide (setPosition < saturation)) rgb' data' := by
  rw [printLoop, if_pos hlt, hround]
  by_cases h : setPosition < saturation <;> simp [h]

theorem printLoop_blank {threshold saturation : ℕ} (fuel position setPosition : ℕ)
    (hfuel : threshold ≤ position + fuel) :
    printLoop enc threshold saturation fuel position setPosition true rgb data =
      some (data ++ channelsOf (replicate (threshold - position) 1)) := by
  induction fuel generalizing position setPosition rgb data with
  | zero => simp [printLoop, show threshold - position = 0 by omega, channelsOf]
  | succ fuel ih =>
    by_cases hlt : position < threshold
    · rw [printLoop_succ hlt (by rw [printRound, if_pos rfl]), Bool.true_or, ih _ _ (by omega),
        show threshold - position = threshold - (position + 1) + 1 by omega, replicate_succ,
        append_assoc]
      rfl
    · rw [printLoop, if_neg hlt, show threshold - position = 0 by omega]
      simp [channelsOf]

theorem channelsOf_append (a b : List ℕ) : channelsOf (a ++ b) = channelsOf a ++ channelsOf b :=
  flatMap_append

theorem printRound_encoded (c : Char) (rgb : Rgb) (data : List UInt8) (position : ℕ) :
    ∃ rgb', printRound (encoded c) false rgb data position =
      some (rgb', data ++ channelsOf (pairsOf c), position + 4) := by
  refine ⟨colorAt (bitsPosition (bitsValue c % 4)), ?_⟩
  rw [printRound, if_neg Bool.false_ne_true, encoded, printBatch_join (bitsPosition_lt _)
    (bitsPosition_lt _) (bitsPosition_lt _) (bitsPosition_lt _)]
  rfl

/-- The letters from position `k` on, and white after them. -/
theorem printLoop_letters {threshold saturation : ℕ} (c : Char) (rest : Text)
    (hs : Plain (c :: rest)) (k fuel : ℕ)
    (henc : ∀ m d, (c :: rest)[m]? = some d → enc (k + m) = encoded d)
    (hsat : saturation = k + rest.length) (hfit : 4 * (k + (c :: rest).length) ≤ threshold)
    (hfuel : threshold ≤ 4 * k + fuel) :
    printLoop enc threshold saturation fuel (4 * k) k false rgb data =
      some (data ++ channelsOf ((c :: rest).flatMap pairsOf ++
        replicate (threshold - 4 * (k + (c :: rest).length)) 1)) := by
  induction rest generalizing c k fuel rgb data with
  | nil =>
    obtain ⟨rgb', hround⟩ := printRound_encoded c rgb data (4 * k)
    rw [← henc 0 c rfl, Nat.add_zero] at hround
    simp only [length_cons, length_nil] at hfit hsat ⊢
    obtain ⟨fuel, rfl⟩ : ∃ f, fuel = f + 1 := ⟨fuel - 1, by omega⟩
    rw [printLoop_succ (by omega) hround, if_neg (by omega), decide_eq_false (by omega),
      Bool.not_false, Bool.or_true, printLoop_blank _ _ _ (by omega), append_assoc,
      ← channelsOf_append]
    simp [Nat.mul_add]
  | cons c' rest ih =>
    obtain ⟨rgb', hround⟩ := printRound_encoded c rgb data (4 * k)
    rw [← henc 0 c rfl, Nat.add_zero] at hround
    simp only [length_cons] at hfit hsat ih ⊢
    obtain ⟨fuel, rfl⟩ : ∃ f, fuel = f + 1 := ⟨fuel - 1, by omega⟩
    rw [printLoop_succ (by omega) hround, if_pos (by omega), decide_eq_true (by omega),
      Bool.not_true, Bool.or_false, show 4 * k + 4 = 4 * (k + 1) by omega,
      ih c' hs.tail (k + 1) fuel ?_ (by omega) (by omega) (by omega), append_assoc,
      ← channelsOf_append, flatMap_cons, append_assoc]
    · rw [show k + 1 + (rest.length + 1) = k + (rest.length + 1 + 1) by omega]
      simp only [flatMap_cons, append_assoc]
    · intro m d hget
      rw [← henc (m + 1) d hget]
      congr 1
      omega

/-- The pixels that are written for a text, by their colours. -/
def colorsOf (s : Text) : List ℕ :=
  s.flatMap pairsOf ++ replicate (256 - 4 * s.length) 1

/-- **The encoder writes the pixels of the characters**, and white after them. -/
theorem enCode_eq (hs : Plain s) (hne : s ≠ []) (hlen : s.length ≤ 64) (enc : ℕ → Text) :
    enCode enc s = some (channelsOf (colorsOf s)) := by
  obtain ⟨enc', henc, -, hget⟩ := enCodeLetters_eq hs 0 enc
  obtain ⟨c, rest, rfl⟩ := exists_cons_of_ne_nil hne
  have hloop : printCODED enc' (c :: rest).length 16 16 =
      some ([] ++ channelsOf ((c :: rest).flatMap pairsOf ++
        replicate (16 * 16 - 4 * (0 + (c :: rest).length)) 1)) := by
    exact printLoop_letters c rest hs 0 (16 * 16) hget (by simp) (by omega) (by omega)
  rw [enCode, if_neg hne, henc, colorsOf]
  rw [Nat.zero_add, nil_append] at hloop
  exact hloop

/-! ### What the decoder reads -/

variable {image : List UInt8} {letters : ℕ → Text} {g : ℕ → ℕ}

/-- The text of the pixel at a position of an image of three channels. -/
def pixelAt (image : List UInt8) (p : ℕ) : Text :=
  pixelText (image.getD (3 * p) 0) (image.getD (3 * p + 1) 0) (image.getD (3 * p + 2) 0)

/-- **The pixels of the image are read**, and no others. -/
theorem readPixels_eq (left position : ℕ) (hlen : 3 * (position + left) ≤ image.length)
    (letters : ℕ → Text) : readPixels image 3 left position (3 * position) letters =
      some fun p => if position ≤ p ∧ p < position + left then pixelAt image p else letters p := by
  induction left generalizing position letters with
  | zero =>
    rw [readPixels]
    congr
    funext p
    rw [if_neg (by omega)]
  | succ left ih =>
    have hget : ∀ k < 3, image[3 * position + k]? = some (image.getD (3 * position + k) 0) := by
      intro k hk
      rw [getD_eq_getElem?_getD, getElem?_eq_getElem (by omega)]
      rfl
    rw [readPixels, hget 0 (by decide), hget 1 (by decide), hget 2 (by decide)]
    change readPixels image 3 left (position + 1) (3 * (position + 1)) _ = _
    rw [ih (position + 1) (by omega)]
    congr
    funext p
    by_cases hp : p = position
    · subst hp
      rw [if_neg (by omega), if_pos (by omega), update_self]
      rfl
    · rw [update_of_ne hp]
      by_cases hin : position ≤ p ∧ p < position + (left + 1)
      · rw [if_pos hin, if_pos (by omega)]
      · rw [if_neg hin, if_neg (by omega)]

/-- The pixels of a character are matched with its bits. -/
theorem matchGroup_eq {w : ℕ}
    (h : ∀ j < 4, letters (w + j) = colorText (g (w + j)) ∧ g (w + j) < 4) :
    matchGroup letters (w + 4) 4 w (letters w) [] =
      some (joinBits (g w) (g (w + 1)) (g (w + 2)) (g (w + 3)), letters (w + 4)) := by
  have hbits : ∀ j < 4, textAt bitString (detect4 fun k =>
      textAt colorStringTempFormatWorkaround k = some (letters (w + j))) =
        some (bitsText (g (w + j))) := by
    intro j hj
    obtain ⟨hletter, hlt⟩ := h j hj
    rw [hletter, detect4_colorText _ hlt]
    exact (bitsText_spec _ hlt).1
  have h0 := hbits 0 (by decide)
  have h1 := hbits 1 (by decide)
  have h2 := hbits 2 (by decide)
  have h3 := hbits 3 (by decide)
  rw [Nat.add_zero] at h0
  -- only the last pair has no blank behind it
  have n0 : ¬w = w + 4 - 1 := by omega
  have n1 : ¬w + 1 = w + 4 - 1 := by omega
  have n2 : ¬w + 1 + 1 = w + 4 - 1 := by omega
  have n3 : w + 1 + 1 + 1 = w + 4 - 1 := by omega
  simp only [matchGroup, h0, h1, h2, h3, joinBits]
  simp

/-- The bits of `left` characters, the first of them at position `w`. -/
theorem matchGroups_eq (left k w : ℕ) (bits : ℕ → Text)
    (h : ∀ p < w + 4 * left, letters p = colorText (g p) ∧ g p < 4) : ∃ bits',
    matchGroups letters left k w (letters w) bits = some bits' ∧ (∀ m < k, bits' m = bits m) ∧
      ∀ m < left, bits' (k + m) = joinBits (g (w + 4 * m)) (g (w + 4 * m + 1))
        (g (w + 4 * m + 2)) (g (w + 4 * m + 3)) := by
  induction left generalizing k w bits with
  | zero => exact ⟨bits, rfl, fun _ _ => rfl, by simp⟩
  | succ left ih =>
    obtain ⟨bits', hrun, hbefore, hafter⟩ := ih (k + 1) (w + 4)
      (update bits k (joinBits (g w) (g (w + 1)) (g (w + 2)) (g (w + 3))))
      fun p hp => h p (by omega)
    refine ⟨bits', ?_, fun m hm => ?_, ?_⟩
    · rw [matchGroups, matchGroup_eq fun j hj => h (w + j) (by omega)]
      exact hrun
    · rw [hbefore m (by omega), update_of_ne (by omega)]
    · rintro (_ | m) hm
      · rw [Nat.add_zero, hbefore k (by omega), update_self]
        rfl
      · rw [show k + (m + 1) = k + 1 + m by omega, hafter m (by omega),
          show w + 4 + 4 * m = w + 4 * (m + 1) by omega]

/-- The text that the decoder makes of the colours of its pixels. -/
def decodeColors (g : ℕ → ℕ) : Text := (List.range 34).flatMap fun k =>
  decodedCharacter (joinBits (g (4 * k)) (g (4 * k + 1)) (g (4 * k + 2)) (g (4 * k + 3)))

/-- **The decoder reads 34 characters out of the colours of 136 pixels.** -/
theorem matchDeCode_eq (f : BvacGlobals)
    (h : ∀ p < 136, f.decodingLetterCount p = colorText (g p) ∧ g p < 4) : ∃ f',
    matchDeCode (f.decodingLetterCount 0) f = some f' ∧ f'.thatdata = decodeColors g ∧
      f'.bvacRun = true := by
  obtain ⟨bits', hrun, -, hbits⟩ := matchGroups_eq 34 0 0 f.decodingBitsCount
    fun p hp => h p (by omega)
  refine ⟨_, by rw [matchDeCode, hrun]; rfl, ?_, rfl⟩
  refine flatMap_congr fun k hk => ?_
  have hk' := hbits k (mem_range.1 hk)
  rw [Nat.zero_add, Nat.zero_add] at hk'
  rw [hk']

/-! ### Through a loss of colour -/

/-- The channel has stayed low if it was low, and high if it was high. -/
def Degraded (w c : UInt8) : Prop :=
  (w.toNat < 90 → c.toNat < 90) ∧ (100 < w.toNat → 100 < c.toNat)

theorem absolute_eq {w c : UInt8} (h : Degraded w c) (hw : w.toNat < 90 ∨ 100 < w.toNat) :
    absolute c.toNat = absolute w.toNat := by
  unfold absolute
  rcases hw with hw | hw
  · rw [if_pos (h.1 hw), if_pos hw]
  · have hc := h.2 hw
    rw [if_neg (by omega), if_pos hc, if_neg (by omega), if_pos hw]

theorem pixelText_degraded (hj : j < 4) {r g b : UInt8} (hr : Degraded (colorAt j).r r)
    (hg : Degraded (colorAt j).g g) (hb : Degraded (colorAt j).b b) :
    pixelText r g b = colorText j := by
  obtain ⟨htext, hchannels⟩ := colorAt_spec j hj
  rw [htext, pixelText, pixelText, absolute_eq hr (hchannels _ (by simp [Rgb.channels])),
    absolute_eq hg (hchannels _ (by simp [Rgb.channels])),
    absolute_eq hb (hchannels _ (by simp [Rgb.channels]))]

theorem degraded_getD {l : List UInt8} (h : List.Forall₂ Degraded l image) (i : ℕ) :
    Degraded (l.getD i 0) (image.getD i 0) := by
  induction h generalizing i with
  | nil => exact ⟨fun h => h, fun h => h⟩
  | cons hwc _ ih =>
    cases i with
    | zero => exact hwc
    | succ i => exact ih i

theorem channelsOf_getD {colors : List ℕ} {p : ℕ} (hp : p < colors.length) :
    (channelsOf colors).getD (3 * p) 0 = (colorAt (colors.getD p 0)).r ∧
      (channelsOf colors).getD (3 * p + 1) 0 = (colorAt (colors.getD p 0)).g ∧
      (channelsOf colors).getD (3 * p + 2) 0 = (colorAt (colors.getD p 0)).b := by
  induction colors generalizing p with
  | nil => exact absurd hp (not_lt_zero p)
  | cons j colors ih =>
    cases p with
    | zero => exact ⟨rfl, rfl, rfl⟩
    | succ p => exact ih (lt_of_succ_lt_succ hp)

theorem pixelAt_degraded {colors : List ℕ} (hcolors : ∀ j ∈ colors, j < 4)
    (h : List.Forall₂ Degraded (channelsOf colors) image) {p : ℕ} (hp : p < colors.length) :
    pixelAt image p = colorText (colors.getD p 0) := by
  obtain ⟨hr, hg, hb⟩ := channelsOf_getD hp
  have hmem : colors.getD p 0 ∈ colors := by
    rw [getD_eq_getElem?_getD, getElem?_eq_getElem hp]
    exact getElem_mem hp
  exact pixelText_degraded (hcolors _ hmem) (hr ▸ degraded_getD h _) (hg ▸ degraded_getD h _)
    (hb ▸ degraded_getD h _)

theorem length_channelsOf (colors : List ℕ) : (channelsOf colors).length = 3 * colors.length := by
  induction colors with
  | nil => rfl
  | cons j colors ih =>
    rw [channelsOf, flatMap_cons, length_append, ← channelsOf, ih, length_cons]
    change 3 + _ = _
    omega

theorem colorsOf_lt (s : Text) : ∀ j ∈ colorsOf s, j < 4 := by
  intro j hj
  rw [colorsOf, mem_append] at hj
  rcases hj with hj | hj
  · obtain ⟨c, -, hj⟩ := mem_flatMap.1 hj
    simp only [pairsOf, mem_cons, not_mem_nil, or_false] at hj
    rcases hj with rfl | rfl | rfl | rfl <;> exact bitsPosition_lt _
  · rw [eq_of_mem_replicate hj]
    decide

theorem length_pairs (s : Text) : (s.flatMap pairsOf).length = 4 * s.length := by
  induction s with
  | nil => rfl
  | cons c s ih =>
    rw [flatMap_cons, length_append, ih]
    simp only [pairsOf, length_cons, length_nil]
    omega

theorem length_colorsOf (hlen : s.length ≤ 64) : (colorsOf s).length = 256 := by
  rw [colorsOf, length_append, length_replicate, length_pairs s]
  omega

theorem colors_getD (tail : List ℕ) {k : ℕ} (hget : s[k]? = some c)
    (hj : j < 4) : (s.flatMap pairsOf ++ tail).getD (4 * k + j) 0 = (pairsOf c).getD j 0 := by
  induction s generalizing k with
  | nil => cases hget
  | cons c' s ih =>
    have hlen : (pairsOf c').length = 4 := rfl
    rw [flatMap_cons, append_assoc]
    cases k with
    | zero =>
      cases hget
      rw [Nat.mul_zero, Nat.zero_add, getD_append _ _ _ _ (hlen ▸ hj)]
    | succ k =>
      rw [getD_append_right _ _ _ _ (by omega), ← ih hget, hlen]
      congr 1
      omega

/-- What is decoded of the pixels of a text: its first 34 characters, with `0` for those missing. -/
theorem decodeColors_colorsOf (hs : Plain s) (hlen : s.length ≤ 64) :
    decodeColors (fun p => (colorsOf s).getD p 0) = (s ++ replicate 34 '0').take 34 := by
  have hchar : ∀ k < 34, decodedCharacter (joinBits ((colorsOf s).getD (4 * k) 0)
      ((colorsOf s).getD (4 * k + 1) 0) ((colorsOf s).getD (4 * k + 2) 0)
      ((colorsOf s).getD (4 * k + 3) 0)) = [(s ++ replicate 34 '0').getD k '0'] := by
    intro k hk
    by_cases hin : k < s.length
    · have hget : s[k]? = some s[k] := getElem?_eq_getElem hin
      obtain ⟨-, hdecoded⟩ := encoded_spec (hs s[k] (getElem_mem hin))
      have hcolor : ∀ j < 4, (colorsOf s).getD (4 * k + j) 0 = (pairsOf s[k]).getD j 0 :=
        fun j hj => colors_getD _ hget hj
      have h0 := hcolor 0 (by decide)
      rw [Nat.add_zero] at h0
      rw [h0, hcolor 1 (by decide), hcolor 2 (by decide), hcolor 3 (by decide),
        getD_append _ _ _ _ hin]
      change decodedCharacter (encoded s[k]) = _
      rw [hdecoded, getD_eq_getElem?_getD, hget]
      rfl
    · -- behind the text the image is white
      have hwhite : ∀ j < 4, (colorsOf s).getD (4 * k + j) 0 = 1 := by
        intro j hj
        have hpos := length_pairs s
        rw [colorsOf, getD_append_right _ _ _ _ (by omega), getD_replicate _ (by omega)]
      have h0 := hwhite 0 (by decide)
      rw [Nat.add_zero] at h0
      rw [h0, hwhite 1 (by decide), hwhite 2 (by decide), hwhite 3 (by decide),
        getD_append_right _ _ _ _ (by omega), getD_replicate _ (by omega)]
      decide
  calc decodeColors (fun p => (colorsOf s).getD p 0)
      = (List.range 34).flatMap fun k => [(s ++ replicate 34 '0').getD k '0'] :=
        flatMap_congr fun k hk => hchar k (mem_range.1 hk)
    _ = (List.range 34).map fun k => (s ++ replicate 34 '0').getD k '0' :=
        map_eq_flatMap.symm
    _ = (s ++ replicate 34 '0').take 34 := by
        refine ext_getElem (by simp) fun k hk _ => ?_
        rw [getElem_map, getElem_range, getElem_take,
          getD_eq_getElem?_getD, getElem?_eq_getElem (by simp at hk ⊢; omega)]
        rfl

/-! ### Images -/

/-- The outcome for an image of three channels; the pixels that it has not are those of the image
before it. -/
theorem deCode_colors {w : ℕ} (hsize : w * w ≤ 256) (hlen : image.length = 3 * (w * w))
    (f : BvacGlobals) (hcolors : ∀ p < 136, (if p < w * w then pixelAt image p
      else f.decodingLetterCount p) = colorText (g p) ∧ g p < 4) :
    ∃ f', deCode (some ⟨image, w, w, 3⟩) f = some f' ∧ f'.thatdata = decodeColors g ∧
      f'.bvacRun = true := by
  have hread : readPixels image 3 (w * w) 0 (3 * 0) f.decodingLetterCount = some fun p =>
      if 0 ≤ p ∧ p < 0 + w * w then pixelAt image p else f.decodingLetterCount p :=
    readPixels_eq (w * w) 0 (by omega) f.decodingLetterCount
  have hmerge : (fun p => if 0 ≤ p ∧ p < 0 + w * w then pixelAt image p
      else f.decodingLetterCount p) =
      fun p => if p < w * w then pixelAt image p else f.decodingLetterCount p := by
    simp
  rw [hmerge] at hread
  obtain ⟨f', hmatch, hdata, hrun⟩ := matchDeCode_eq (g := g)
    { f with
      decodingLetterCount := fun p => if p < w * w then pixelAt image p
        else f.decodingLetterCount p } hcolors
  refine ⟨f', ?_, hdata, hrun⟩
  have hsquare : ¬(w * w > 256 ∨ w ≠ w) := by omega
  rw [deCode]
  simp only [if_neg hsquare]
  rw [if_neg (by decide), hread]
  exact hmatch

/-- **The decoder reads the first 34 characters back**, with `0` for those that are missing, from
any image whose channels have stayed low and high. -/
theorem deCode_degraded (hs : Plain s) (hlen : s.length ≤ 64)
    (himage : List.Forall₂ Degraded (channelsOf (colorsOf s)) image) (f : BvacGlobals) :
    ∃ f', deCode (some ⟨image, 16, 16, 3⟩) f = some f' ∧
      f'.thatdata = (s ++ replicate 34 '0').take 34 ∧ f'.bvacRun = true := by
  have hcolors := length_colorsOf hlen
  have hlength : image.length = 3 * (16 * 16) := by
    rw [← himage.length_eq, length_channelsOf, hcolors]
  rw [← decodeColors_colorsOf hs hlen]
  refine deCode_colors (by decide) hlength f fun p hp => ⟨?_, ?_⟩
  · rw [if_pos (by omega)]
    exact pixelAt_degraded (colorsOf_lt s) himage (by omega)
  · have hmem : (colorsOf s).getD p 0 ∈ colorsOf s := by
      rw [getD_eq_getElem?_getD, getElem?_eq_getElem (by omega)]
      exact getElem_mem _
    exact colorsOf_lt s _ hmem

/-- **An encoded text of 34 letters and digits survives any loss of colour** that keeps low channels
low and high channels high. -/
theorem bvac_survives {s : Text} (hs : ∀ c ∈ s, c.isAlphanum = true) (hlen : s.length = 34)
    (encodingLetterCount : ℕ → Text) (f : BvacGlobals) :
    ∃ data, enCode encodingLetterCount s = some data ∧ data.length = 16 * 16 * 3 ∧
      ∀ image, List.Forall₂ Degraded data image → ∃ f',
        deCode (some ⟨image, 16, 16, 3⟩) f = some f' ∧ f'.thatdata = s ∧ f'.bvacRun = true := by
  have hne : s ≠ [] := by
    rintro rfl
    cases hlen
  refine ⟨_, enCode_eq hs hne (by omega) _, ?_, fun image himage => ?_⟩
  · rw [length_channelsOf, length_colorsOf (by omega)]
  · obtain ⟨f', hdecode, hdata, hrun⟩ := deCode_degraded hs (by omega) himage f
    refine ⟨f', hdecode, ?_, hrun⟩
    rw [hdata, ← hlen, take_left]

/-- The decoder before its first image. -/
def BvacGlobals.start : BvacGlobals := ⟨[], fun _ => [], fun _ => [], false⟩

theorem bvac_survives_repeated : ∃ data, enCode (fun _ => []) (replicate 34 'e') = some data ∧
    data.length = 16 * 16 * 3 ∧ ∀ image, List.Forall₂ Degraded data image → ∃ f',
      deCode (some ⟨image, 16, 16, 3⟩) BvacGlobals.start = some f' ∧
        f'.thatdata = replicate 34 'e' ∧ f'.bvacRun = true :=
  bvac_survives (fun _ hc => eq_of_mem_replicate hc ▸ rfl) length_replicate _ _

/-- **What the decoder is faithful to**: of a text that fits the image, its first 34 characters; and
of an image of three channels, the colours of its first 136 pixels, if it has that many and they are
in the table. -/
theorem deCode_faithful :
    (∀ s : Text, (∀ c ∈ s, c.isAlphanum = true) → 1 ≤ s.length → s.length ≤ 64 →
      ∀ encodingLetterCount f, ∃ data f', enCode encodingLetterCount s = some data ∧
        deCode (some ⟨data, 16, 16, 3⟩) f = some f' ∧
        f'.thatdata = (s ++ replicate 34 '0').take 34 ∧ f'.bvacRun = true) ∧
    ∀ (image : List UInt8) (w : ℕ), w * w ≤ 256 → 136 ≤ w * w → image.length = 3 * (w * w) →
      (∀ p < 136, ∃ j < 4, pixelAt image p = colorText j) →
        ∃ thatdata, ∀ f, ∃ f', deCode (some ⟨image, w, w, 3⟩) f = some f' ∧
          f'.thatdata = thatdata ∧ f'.bvacRun = true := by
  refine ⟨fun s hs hpos hlen enc f => ?_, fun image w hsize henough hlen hcolors => ?_⟩
  · have hne : s ≠ [] := by
      rintro rfl
      cases hpos
    obtain ⟨f', hdecode⟩ := deCode_degraded hs hlen
      (forall₂_same.2 fun _ _ => ⟨fun h => h, fun h => h⟩) f
    exact ⟨_, f', enCode_eq hs hne hlen enc, hdecode⟩
  · choose! g hg using hcolors
    refine ⟨decodeColors g, fun f => deCode_colors hsize hlen f fun p hp => ?_⟩
    rw [if_pos (by omega)]
    exact ⟨(hg p hp).2, (hg p hp).1⟩

/-- What an image decodes to. -/
def decodedText (file : LoadedImage) (f : BvacGlobals) : Option Text :=
  (deCode (some file) f).map BvacGlobals.thatdata

/-- The decoder after an image of one colour. -/
def BvacGlobals.after (j : ℕ) : BvacGlobals :=
  { BvacGlobals.start with decodingLetterCount := fun _ => colorText j }

theorem decodedText_white (hj : j < 4) : decodedText ⟨[255, 255, 255], 1, 1, 3⟩ (.after j) =
      some (decodeColors fun p => if p < 1 then 1 else j) := by
  obtain ⟨f', hdecode, hdata, -⟩ : ∃ f', deCode (some ⟨[255, 255, 255], 1, 1, 3⟩) (.after j) =
      some f' ∧ f'.thatdata = decodeColors (fun p => if p < 1 then 1 else j) ∧ f'.bvacRun = true :=
    deCode_colors (by decide) rfl (.after j) fun p _ => by
      by_cases hp : p < 1
      · obtain rfl : p = 0 := by omega
        simp only [Nat.zero_lt_one, Nat.mul_one, if_true]
        exact ⟨by decide, by decide⟩
      · simp only [if_neg hp]
        exact ⟨rfl, hj⟩
  rw [decodedText, hdecode, map_some, hdata]

/-- `A` and `A0` are written as the same image; an image of one pixel is decoded with the pixels of
the image before it; and a grey pixel is looked up behind the end of a table. -/
theorem deCode_unfaithful :
    (¬∀ s t : Text, (∀ c ∈ s ++ t, c.isAlphanum = true) → 1 ≤ s.length → s.length ≤ 64 →
      1 ≤ t.length → t.length ≤ 64 → s ≠ t → ∀ f,
        ((enCode (fun _ => []) s).bind fun data => decodedText ⟨data, 16, 16, 3⟩ f) ≠
          ((enCode (fun _ => []) t).bind fun data => decodedText ⟨data, 16, 16, 3⟩ f)) ∧
    decodedText ⟨[255, 255, 255], 1, 1, 3⟩ (.after 0) ≠
      decodedText ⟨[255, 255, 255], 1, 1, 3⟩ (.after 1) ∧
    decodedText ⟨[95, 95, 95], 1, 1, 3⟩ .start = none := by
  refine ⟨fun h => ?_, ?_, by decide⟩
  · have hdecoded : ∀ s : Text, Plain s → s ≠ [] → s.length ≤ 64 →
        ((enCode (fun _ => []) s).bind fun data => decodedText ⟨data, 16, 16, 3⟩ .start) =
          some ((s ++ replicate 34 '0').take 34) := by
      intro s hs hne hlen
      obtain ⟨f', hdecode, hdata, -⟩ := deCode_degraded hs hlen
        (forall₂_same.2 fun _ _ => ⟨fun h => h, fun h => h⟩) .start
      rw [enCode_eq hs hne hlen, bind_some, decodedText, hdecode, map_some, hdata]
    refine h ['A'] ['A', '0'] (all_eq_true.1 (by decide)) (by decide) (by decide) (by decide)
      (by decide) (by decide) .start ?_
    rw [hdecoded _ (all_eq_true.1 (by decide)) (by decide) (by decide),
      hdecoded _ (all_eq_true.1 (by decide)) (by decide) (by decide)]
    rfl
  · rw [decodedText_white (by decide), decodedText_white (by decide)]
    decide

end Espers
