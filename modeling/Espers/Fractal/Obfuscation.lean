import Mathlib.Data.Int.Init
import Espers.Lib.Tokens

/-!
# The obfuscation of contract data

A contract is a text of words.  Each letter becomes a code of twelve digits with a `D` behind it,
each word ends with a `C`, and the text of a contract of type 3 is stored with its alias behind a
`|`.

The functions have the names of the source, and so have the texts they share, which are the fields
of `FractalData`.  A function has no result when it reads outside an array or follows a null
pointer; the buffers on the stack are taken to be large enough.
-/

namespace Espers

open Tokens

/-- A string of the program. -/
abbrev Text := List Char

/-- `c_str()` as the functions of C read it. -/
def cStr (s : Text) : Text := s.takeWhile (· ≠ '\x00')

/-! ### The tables -/

/-- `Character_String`. -/
def characterString : List String := [ "A", "a", "B", "b", "C", "c", "D", "d", "E", "e", "F", "f",
  "G", "g", "H", "h", "I", "i", "J", "j", "K", "k", "L", "l",
  "M", "m", "N", "n", "O", "o", "P", "p", "Q", "q", "R", "r",
  "S", "s", "T", "t", "U", "u", "V", "v", "W", "w", "X", "x",
  "Y", "y", "Z", "z", "0", "1", "2", "3", "4", "5", "6", "7",
  "8", "9"]

/-- `Letter_Unmatch_String`. -/
def letterUnmatchString : List String := [
  "1441", "1341", "1443", "1343", "1442", "1342", "1414", "1314", "1411", "1311",
  "1413", "1313", "1412", "1312", "1434", "1334", "1431", "1331", "1433", "1333",
  "1432", "1332", "1424", "1324", "1421", "1321", "1423", "1323", "1422", "1322",
  "1144", "1244", "1141", "1241", "1143", "1243", "1142", "1242", "1114", "1214",
  "1111", "1211", "1113", "1213", "1112", "1212", "1134", "1234", "1131", "1231",
  "1133", "1233", "4244", "4241", "4243", "4242", "4214", "4211", "4213", "4212",
  "4234", "4231"]

/-- `Obfuscation_String`. -/
def obfuscationString : List String := [
  "41141441", "41421441", "41141442", "41421442", "41141443", "41411443",
  "41144114", "41424114", "41144141", "41424141", "41144142", "41424142",
  "41144143", "41424143", "41144214", "41424214", "41144241", "41424241",
  "41144242", "41424242", "41144243", "41424243", "41144314", "41424314",
  "41144341", "41424341", "41144342", "41424342", "41144343", "41424343",
  "41411414", "41431414", "41411441", "41431441", "41411442", "41431442",
  "41411442", "41431443", "41414114", "41434114", "41414141", "41434141",
  "41414142", "41434142", "41414143", "41434143", "41414214", "41434214",
  "41414241", "41434241", "41414242", "41434242", "14431414", "14431441",
  "14431442", "14431443", "14434114", "14434141", "14434142", "14434143",
  "14434214", "14434241"]

/-- `Character_String[i]`. -/
def characterAt (i : ℕ) : Option Text := characterString[i]?.map String.toList

theorem characterAt_buffers : characterAt 0 = some ['A'] ∧ characterAt 2 = some ['B'] ∧
    characterAt 4 = some ['C'] ∧ characterAt 6 = some ['D'] := by
  decide

/-- `Letter_Unmatch_String[i] + Obfuscation_String[i]`. -/
def codeAt (i : ℕ) : Option Text := do
  let letter ← letterUnmatchString[i]?
  let tail ← obfuscationString[i]?
  some (letter.toList ++ tail.toList)

/-- The first position below 62 with a match, or 62. -/
def detect (found : ℕ → Bool) : ℕ := ((List.range 62).find? found).getD 62

/-- The texts that the functions share. -/
structure FractalData where
  obfuscatedString : Text
  obfuscatedCombinedString : Text
  plainTextCombinedString : Text
  plainTextString : Text
  singleLayerKey : Text
  secondLayerKey : Text
  fTokenDecodeSuccess : Bool

/-- What the functions call for other types of contracts and for a second layer; they depend on the
time and on random numbers. -/
structure FractalLayers where
  /-- `obfuscation_shift`. -/
  obfuscationShift : Text → Bool → FractalData → FractalData
  /-- `gateKeeper` from the text that was read to `PlainText_Combined_String`. -/
  reassembly : FractalData → Option FractalData

/-- The loop over the letters of a word. -/
def obfuscateLetters : Text → Text → Option Text
  | obfuscatedString, [] => some obfuscatedString
  | obfuscatedString, c :: letters => do
    let code ← codeAt (detect fun i => characterAt i = some [c])
    -- syntax safe letter buffer
    let buffer ← characterAt 6
    obfuscateLetters (obfuscatedString ++ code ++ buffer) letters

/-- The loop over the words; `left` words may follow this one. -/
def obfuscateWords (L : FractalLayers) (layer_2 : Bool) :
    ℕ → Option (Text × Text) → FractalData → Option FractalData
  | _, none, f => some f
  | left, some (wrdcount, rest), f => do
    let s ← obfuscateLetters f.obfuscatedString wrdcount
    let f := { f with obfuscatedString := s }
    let f := if layer_2 then L.obfuscationShift f.obfuscatedString true f else f
    let buffer ← characterAt 4
    let f := { f with
      obfuscatedCombinedString := f.obfuscatedCombinedString ++ (f.obfuscatedString ++ buffer)
      obfuscatedString := [] }
    match left with
    | 0 => some f
    | left + 1 => obfuscateWords L layer_2 left (next ' ' rest) f

/-- `write_contractDATA`: what is in the file; `existed` says whether it was there before. -/
def writeContractData (existed : Bool) (obfuscatedWriteString contractAlias : Text) : Text :=
  (if existed then ['\n'] else []) ++ cStr obfuscatedWriteString ++ ['|'] ++
    cStr contractAlias ++ ['\n']

/-- `character_obfuscation`: the texts, and what is in the file of the contract. -/
def characterObfuscation (L : FractalLayers) (existed : Bool) (contractInput contractAlias : Text)
    (contractType : ℤ) (layer_2 : Bool) (f : FractalData) : Option (FractalData × Text) := do
  let f := { f with
    secondLayerKey := [], singleLayerKey := [], obfuscatedCombinedString :=
      [], obfuscatedString := [] }
  -- at most 5000 words
  let f ← obfuscateWords L layer_2 4999 (next ' ' (cStr contractInput)) f
  let f ←
    if contractType ≠ 3 then do
      let f := L.obfuscationShift f.obfuscatedCombinedString false f
      let buffer ← characterAt 0
      -- Write read key to end of output
      some { f with
        obfuscatedCombinedString :=
          f.obfuscatedCombinedString ++ (buffer ++ f.singleLayerKey ++ buffer) }
    else some f
  some (f, writeContractData existed f.obfuscatedCombinedString contractAlias)

/-! ### `character_deob` -/

/-- The loop that cuts the text at each `C`; `left` words may follow this one. -/
def obCache : ℕ → Text → List Text
  | left, toDeob =>
    if 'C' ∈ toDeob then
      toDeob.takeWhile (· ≠ 'C') :: match left with
        | 0 => []
        | left + 1 => obCache left ((toDeob.dropWhile (· ≠ 'C')).drop 1)
    else []

/-- The loop over the codes of a word; `n` letters are left. -/
def matchLetters : ℕ → Text → Text → Text → Option Text
  | 0, _, _, plainTextString => some plainTextString
  | n + 1, ltrcount, rest, plainTextString => do
    let c ← characterAt (detect fun i => codeAt i = some ltrcount)
    -- Move to next letter
    let (ltrcount, rest) ← next 'D' rest
    matchLetters n ltrcount rest (plainTextString ++ c)

/-- The loop over the words; `left` words may follow this one. -/
def matchWords : ℕ → List Text → FractalData → Option FractalData
  | _, [], f => some f
  | left, word :: obCache, f => do
    -- Padd incoming value set
    let wrdcount := word ++ ['0']
    let (ltrcount, rest) ← next 'D' (cStr wrdcount)
    let letterLoopTotal := (wrdcount.take (wrdcount.length - 1)).count 'D'
    let s ← matchLetters letterLoopTotal ltrcount rest f.plainTextString
    let f := { f with
      plainTextCombinedString := f.plainTextCombinedString ++ (s ++ [' '])
      plainTextString := [] }
    match left with
    | 0 => some f
    | left + 1 => matchWords left obCache f

/-- `character_deob`. -/
def characterDeob (toDeob : Text) (contractType : ℤ) (f : FractalData) : Option FractalData := do
  let words := obCache 4999 toDeob
  let f := { f with plainTextString := [], plainTextCombinedString := [], fTokenDecodeSuccess := false }
  let f ← matchWords 4999 words f
  if contractType ≠ 3 ∧ f.plainTextCombinedString = "this is only a test ".toList then
    some { f with fTokenDecodeSuccess := true }
  else some f

/-- The lines of a file in one text; comments and empty lines are left out. -/
def readLines (file : Text) : Text :=
  (file.splitOn '\n').flatMap fun line => if line = [] ∨ line.head? = some '#' then [] else line

/-- `gateKeeper`; there is no file if it cannot be opened. -/
def gateKeeper (L : FractalLayers) (file : Option Text) (contractType : ℤ) (f : FractalData) :
    Option FractalData := do
  let f := { f with plainTextCombinedString := [] }
  match file with
  | none => some f
  | some file => do
    let f := { f with obfuscatedCombinedString := readLines file }
    let f ←
      if contractType ≠ 3 then L.reassembly f
      else some { f with plainTextCombinedString := f.obfuscatedCombinedString.takeWhile (· ≠ '|') }
    characterDeob f.plainTextCombinedString contractType f

end Espers
