import Espers.Fractal.Obfuscation
import Espers.Lib.Binary64
import Espers.Lib.Loop

/-!
# The letters of a contract are moved

`flameout` moves each letter of a text to another position and keeps the positions in a key, by
which `reassembly` moves them back; `ignition` draws the letters from the positions.  A position is
a multiple of a number that comes from the time; it is halved until it is at most the length of the
text, and if it has been used a counter runs down from the length to one that has not.

The buffers on the stack hold what is written to them, so the lengths of texts are `int`s; `stack`
is what is in a buffer before.  A loop is given a number of rounds, `fuel`.
-/

namespace Espers

open Tokens

/-! ### Tables -/

/-- What a run ends with that does not come to its end. -/
inductive Fault
  /-- An index is behind the end of a table. -/
  | outsideTable
  /-- A division by zero. -/
  | zeroLength
  /-- A loop has not ended within its rounds. -/
  | outOfFuel
  deriving DecidableEq, Repr

/-- The texts and the tables that the functions share. -/
structure FractalMemory extends FractalData where
  wordLetterMovements : ℕ → Text
  wordCharacterMovements : ℕ → Text
  obCache : ℕ → Text

/-- The number of entries of `Word_Letter_Movements`, `Word_Character_Movements` and `Ob_Cache`. -/
def tableSize : ℕ := 5000

/-- An entry of a table. -/
def readTable (table : ℕ → Text) (i : ℕ) : Except Fault Text :=
  if i < tableSize then .ok (table i) else .error .outsideTable

/-- A table with another entry. -/
def writeTable (table : ℕ → Text) (i : ℕ) (s : Text) : Except Fault (ℕ → Text) :=
  if i < tableSize then .ok (Function.update table i s) else .error .outsideTable

/-- What is read from the tables of 62 entries. -/
def fromTable {α : Type} : Option α → Except Fault α
  | none => .error .outsideTable
  | some a => .ok a

/-- What a loop leaves with. -/
def withinFuel {α : Type} : Option α → Except Fault α
  | none => .error .outOfFuel
  | some a => .ok a

/-- A buffer after `strcpy`. -/
def strcpy (stack : ℤ → Char) (s : Text) (i : ℤ) : Char :=
  if 0 ≤ i then (cStr s ++ ['\x00']).getD i.toNat (stack i) else stack i

/-- `GetTime()` and `pindexBest->GetBlockTime()`. -/
structure Clocks where
  seed_1 : Int64
  seed_2 : Int64

/-- `(seed_1 + seed_2) / seed_3`. -/
def Clocks.quotient (t : Clocks) (seed_3 : ℕ) : ℤ := (t.seed_1 + t.seed_2).toInt.tdiv seed_3

/-- "Reduce value". -/
def reduceSeed (seed_3 : ℕ) (seed_tmp : Binary64) : Binary64 ⊕ Binary64 :=
  if (Binary64.ofNat (seed_3 * 10)).lt seed_tmp then .inl (seed_tmp.div (.ofNat 10))
  else .inr seed_tmp

/-- "Raise value". -/
def raiseSeed (seed_tmp : Binary64) : Binary64 ⊕ Binary64 :=
  if seed_tmp.lt (.ofNat 2) then .inl (seed_tmp.mul (.ofNat 10)) else .inr seed_tmp

/-- `seed_tmp` after its loops. -/
def seedTmp (fuel : ℕ) (t : Clocks) (seed_3 : ℕ) : Except Fault Binary64 :=
  if seed_3 = 0 then .error .zeroLength
  else do
    let seed_tmp ← withinFuel (Loop.run (reduceSeed seed_3) fuel (.ofRat (t.quotient seed_3)))
    withinFuel (Loop.run raiseSeed fuel seed_tmp)

/-- `pre_shift`. -/
def preShift (seed_tmp : Binary64) (seed_3 : ℕ) : ℤ :=
  (seed_tmp.add (.ofNat (seed_3 / 2))).toInt64

/-- `pre_pivot`. -/
def prePivot (seed_tmp : Binary64) (seed_3 : ℕ) : ℤ :=
  (((Binary64.ofRat (preShift seed_tmp seed_3 - 1 : ℤ)).add seed_tmp).div (.ofNat seed_3)).toInt64

/-- `pre_pivot + pre_shift`. -/
def moveFactor (seed_tmp : Binary64) (seed_3 : ℕ) : ℤ :=
  prePivot seed_tmp seed_3 + preShift seed_tmp seed_3

/-! ### The positions -/

/-- "Bring down move within sanity window". -/
def dropMove (seed_3 : ℕ) (ob_move : ℤ) : ℤ :=
  if ob_move > seed_3 then dropMove seed_3 (ob_move / 2) else ob_move
termination_by ob_move.toNat
decreasing_by omega

/-- The first number that the factor is multiplied with. -/
def firstCount (seed_3 : ℕ) : ℕ := (seed_3 + 6) / 3 / 3

/-- The collision check over the positions that are left of the log: whether there is a collision
after it.  It is resolved at the last position. -/
def collisionCheck (ob_move : ℤ) : List ℤ → Bool → Bool
  | [], collision => collision
  | p :: logged, collision =>
    if p = ob_move then true else collisionCheck ob_move logged (collision && !logged.isEmpty)

/-- What the loop writes besides the log. -/
structure Moved where
  chOutputcount : ℤ → Char
  memory : FractalMemory

/-- The variables of the loop over the letters. -/
structure Moving where
  seedLoop : ℕ
  obMove : ℤ
  collision : Bool
  colRep : ℕ
  loggedUsedPositions : List ℤ
  moved : Moved

/-- A round of the loop over the letters; `place` is what it writes for a position. -/
def moveStep (place : ℕ → ℤ → Moved → Except Fault Moved) (factor : ℤ) (seed_3 : ℕ) (m : Moving) :
    Moving ⊕ Except Fault Moving :=
  if m.seedLoop < seed_3 then
    let ob_move := if m.collision then m.obMove
      else dropMove seed_3 (factor * (m.seedLoop / 3 : ℕ))
    if collisionCheck ob_move m.loggedUsedPositions m.collision then
      -- the next position from the end
      .inl { m with
        obMove := if 0 < m.colRep then (m.colRep - 1 : ℕ) else ob_move
        collision := true
        colRep := m.colRep - 1 }
    else
      match place m.seedLoop ob_move m.moved with
      | .error e => .inr (.error e)
      | .ok moved => .inl {
          seedLoop := m.seedLoop + 1
          obMove := ob_move
          collision := false
          colRep := m.colRep
          loggedUsedPositions := m.loggedUsedPositions ++ [ob_move]
          moved := moved }
  else .inr (.ok m)

/-- The loop over the letters, after the first letter. -/
def Moving.start (factor : ℤ) (seed_3 colRep : ℕ) (moved : Moved) : Moving where
  seedLoop := 1
  obMove := dropMove seed_3 (factor * firstCount seed_3)
  collision := false
  colRep := colRep
  loggedUsedPositions := [dropMove seed_3 (factor * firstCount seed_3)]
  moved := moved

/-- The moves that `ignition` and `flameout` make; `first` is what they write for the first letter,
`place` what they write for the others. -/
def moveLetters (fuel : ℕ) (first place : ℕ → ℤ → Moved → Except Fault Moved) (factor : ℤ)
    (seed_3 letter_loop_total : ℕ) (moved : Moved) : Except Fault Moving := do
  let moved ← first 0 (dropMove seed_3 (factor * firstCount seed_3)) moved
  let result ← withinFuel (Loop.run (moveStep place factor seed_3) fuel
    (.start factor seed_3 letter_loop_total moved))
  result

/-- The loop of `keyMaster`; `left` entries are to come. -/
def assembleKey (teeth key : ℕ → Text) : ℕ → ℕ → Text → Text → Except Fault (Text × Text)
  | 0, _, Teeth_assembled, Key_assembled => .ok (Teeth_assembled, Key_assembled)
  | left + 1, cur_loop, Teeth_assembled, Key_assembled => do
    let tooth ← readTable teeth cur_loop
    let piece ← readTable key cur_loop
    assembleKey teeth key left (cur_loop + 1) (Teeth_assembled ++ tooth) (Key_assembled ++ piece)

/-- `keyMaster`. -/
def keyMaster (loop_threshold : ℕ) (layer_2 : Bool) (f : FractalMemory) :
    Except Fault FractalMemory := do
  let (teeth, key) ← assembleKey f.obCache
    (if layer_2 then f.wordCharacterMovements else f.wordLetterMovements) loop_threshold 0 [] []
  if layer_2 then
    .ok { f with obfuscatedString := teeth, secondLayerKey := f.secondLayerKey ++ key }
  else .ok { f with obfuscatedCombinedString := teeth, singleLayerKey := key }

/-- `std::to_string`. -/
def toText (ob_move : ℤ) : Text := (toString ob_move).toList

/-- A letter of `ignition` comes from the position. -/
def drawLetter (input : ℤ → Char) (seed_loop : ℕ) (ob_move : ℤ) (m : Moved) : Except Fault Moved :=
  .ok { m with chOutputcount := Function.update m.chOutputcount seed_loop (input ob_move) }

/-- The loop of `ignition` also keeps the letter and the position. -/
def drawLogged (input : ℤ → Char) (seed_loop : ℕ) (ob_move : ℤ) (m : Moved) :
    Except Fault Moved := do
  let m ← drawLetter input seed_loop ob_move m
  let obCache ← writeTable m.memory.obCache seed_loop [m.chOutputcount seed_loop]
  let movements ← writeTable m.memory.wordCharacterMovements seed_loop (toText ob_move)
  .ok { m with memory := { m.memory with
    obCache := obCache, wordCharacterMovements := movements } }

/-- `ignition`. -/
def ignition (fuel : ℕ) (t : Clocks) (stack : ℤ → Char) (input_data_shift : ℕ)
    (input_data_text : Text) (f : FractalMemory) : Except Fault FractalMemory := do
  let seed_tmp ← seedTmp fuel t input_data_shift
  let input := strcpy stack input_data_text
  let m ← moveLetters fuel (drawLetter input) (drawLogged input)
    (moveFactor seed_tmp input_data_shift) input_data_shift input_data_text.length ⟨stack, f⟩
  keyMaster input_data_shift true m.moved.memory

/-- A letter of `flameout` goes to the position. -/
def placeLetter (input : ℤ → Char) (seed_loop : ℕ) (ob_move : ℤ) (m : Moved) :
    Except Fault Moved := do
  let buffer ← fromTable (characterAt 2)
  let movements ← writeTable m.memory.wordLetterMovements seed_loop (toText ob_move ++ buffer)
  .ok {
    chOutputcount := Function.update m.chOutputcount ob_move (input seed_loop)
    memory := { m.memory with wordLetterMovements := movements } }

/-- "Generate Key Teeth data"; `left` letters are to come. -/
def keyTeeth (chOutputcount : ℤ → Char) : ℕ → ℕ → (ℕ → Text) → Except Fault (ℕ → Text)
  | 0, _, obCache => .ok obCache
  | left + 1, KeyTeeth_Loop, obCache => do
    let obCache ← writeTable obCache KeyTeeth_Loop [chOutputcount KeyTeeth_Loop]
    keyTeeth chOutputcount left (KeyTeeth_Loop + 1) obCache

/-- `flameout`. -/
def flameout (fuel : ℕ) (t : Clocks) (stack : ℤ → Char) (input_data_shift : ℕ)
    (input_data_text : Text) (f : FractalMemory) : Except Fault FractalMemory := do
  let seed_tmp ← seedTmp fuel t input_data_shift
  let input := strcpy stack input_data_text
  let m ← moveLetters fuel (placeLetter input) (placeLetter input)
    (moveFactor seed_tmp input_data_shift) input_data_shift input_data_text.length ⟨stack, f⟩
  let obCache ← keyTeeth m.moved.chOutputcount input_data_shift 0 m.moved.memory.obCache
  keyMaster input_data_shift false { m.moved.memory with obCache := obCache }

/-- `obfuscation_shift`. -/
def obfuscationShift (fuel : ℕ) (t : Clocks) (stack : ℤ → Char) (input_data_shift : ℕ)
    (input_data_text : Text) (char_ob : Bool) (f : FractalMemory) : Except Fault FractalMemory :=
  if char_ob then ignition fuel t stack input_data_shift input_data_text f
  else flameout fuel t stack input_data_shift input_data_text f

/-- `std::stoi`, which has no result for an exception. -/
def stoi (s : Text) : Option ℤ :=
  let s := s.dropWhile fun c => c ∈ [' ', '\t', '\n', '\x0b', '\x0c', '\r']
  let digits := (if s.head? = some '-' ∨ s.head? = some '+' then s.drop 1 else s).takeWhile
    Char.isDigit
  let magnitude : ℤ := Nat.ofDigitChars 10 digits 0
  let value := if s.head? = some '-' then -magnitude else magnitude
  if digits ≠ [] ∧ -2 ^ 31 ≤ value ∧ value < 2 ^ 31 then some value else none

/-- "Loop through and extract key data"; `left` pieces of the key are to come. -/
def extractKey (Teeth_input : ℤ → Char) : ℕ → ℕ → Option (Text × Text) → (ℕ → Text) →
    Option (ℕ → Text)
  | _, _, none, _ => none
  | 0, _, some _, obCache => some obCache
  | left + 1, cur_loop, some (str_ob_sets, rest), obCache => do
    let deob_set ← stoi str_ob_sets
    let obCache ← (writeTable obCache cur_loop [Teeth_input deob_set]).toOption
    extractKey Teeth_input left (cur_loop + 1) (next 'B' rest) obCache

/-- `reassembly`, which has no result when it follows a null pointer, reads outside a table or
throws an exception. -/
def reassembly (stack : ℤ → Char) (input1 input2 : Text) (f : FractalMemory) :
    Option FractalMemory := do
  let clean_threshold := input2.count 'B'
  let Teeth_input := strcpy stack (input1 ++ ['_'])
  let Key_input := cStr (input2 ++ ['_'])
  let obCache ← extractKey Teeth_input clean_threshold 0 (next 'B' Key_input) f.obCache
  some { f with
    obCache := obCache
    plainTextCombinedString :=
      f.plainTextCombinedString ++ (List.range clean_threshold).flatMap obCache }

end Espers
