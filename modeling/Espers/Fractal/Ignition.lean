import Espers.Fractal.Reversal

/-!
# Moves within the tables

The tables of the moves and of the letters have 5000 entries.  `ignition` and `flameout` write an
entry for each letter of a text, and divide by its length.

* `ignition_spec`, `flameout_inBounds` : a text of 1 to 5000 letters is moved within the tables.
* `ignition_ends`, `flameout_outside` : a longer one is not, once the seed loops end.
-/

namespace Espers

open Function List Nat Except

variable {n fuel : ℕ} {t : Clocks} {text : Text} {stack : ℤ → Char} {f f' : FractalMemory}

/-! ### Faults -/

/-- The run has not left its tables, nor divided by zero: at most it has not ended yet. -/
def InBounds {α : Type} (r : Except Fault α) : Prop := ∀ e, r = .error e → e = .outOfFuel

theorem inBounds_ok {α : Type} (a : α) : InBounds (.ok a : Except Fault α) := fun _ h => by cases h

theorem inBounds_outOfFuel {α : Type} : InBounds (.error .outOfFuel : Except Fault α) :=
  fun _ h => (error.inj h).symm

theorem InBounds.bind {α β : Type} {x : Except Fault α} {g : α → Except Fault β} (hx : InBounds x)
    (hg : ∀ a, x = .ok a → InBounds (g a)) : InBounds (x >>= g) := by
  cases x with
  | error e => exact fun e' h => hx e' (congrArg _ (error.inj h))
  | ok a => exact hg a rfl

theorem inBounds_withinFuel {α : Type} (r : Option α) : InBounds (withinFuel r) := by
  cases r with
  | none => exact inBounds_outOfFuel
  | some a => exact inBounds_ok a

theorem seedTmp_inBounds (hn : n ≠ 0) (fuel : ℕ) (t : Clocks) : InBounds (seedTmp fuel t n) := by
  rw [seedTmp, if_neg hn]
  exact (inBounds_withinFuel _).bind fun _ _ => inBounds_withinFuel _

/-! ### Letters drawn -/

/-- What `ignition` has written for the positions of the log: the first entry of the cache is left
as it is, and the others are letters. -/
def Drawn (f : FractalMemory) (logged : List ℤ) (m : Moved) : Prop :=
  0 < logged.length ∧ logged.length ≤ tableSize ∧ m.memory.obCache 0 = f.obCache 0 ∧
    (∀ i, 0 < i → i < logged.length → (m.memory.obCache i).length = 1) ∧
    m.memory.obfuscatedCombinedString = f.obfuscatedCombinedString

theorem drawLogged_spec (input : ℤ → Char) (n : ℕ) (logged : List ℤ) (p : ℤ) (m : Moved)
    (h : Drawn f logged m) (hlt : logged.length < n) (_ : p ∉ logged) :
    match drawLogged input logged.length p m with
    | .error e => e = .outsideTable ∧ tableSize < n
    | .ok m => Drawn f (logged ++ [p]) m := by
  obtain ⟨hpos, hlen, hzero, hone, hcombined⟩ := h
  have hlength : (logged ++ [p]).length = logged.length + 1 := by
    rw [length_append]
    rfl
  rcases lt_or_ge logged.length tableSize with hin | hout
  · have hdraw : drawLogged input logged.length p m =
        .ok ⟨update m.chOutputcount logged.length (input p), { m.memory with
          obCache := update m.memory.obCache logged.length
            [update m.chOutputcount logged.length (input p) logged.length]
          wordCharacterMovements := update m.memory.wordCharacterMovements logged.length
            (toText p) }⟩ := by
      change (writeTable _ _ _ >>= fun obCache => writeTable _ _ _ >>= _) = _
      rw [writeTable_of_lt hin, writeTable_of_lt hin]
      rfl
    rw [hdraw]
    refine ⟨hlength ▸ succ_pos _, hlength ▸ hin, ?_, fun i hi hi' => ?_, hcombined⟩
    · rw [← hzero]
      exact update_of_ne hpos.ne _ _
    · rw [hlength] at hi'
      rcases Nat.lt_succ_iff_lt_or_eq.1 hi' with hlt' | rfl
      · change (update m.memory.obCache logged.length _ i).length = 1
        rw [update_of_ne hlt'.ne, hone i hi hlt']
      · change (update m.memory.obCache logged.length _ logged.length).length = 1
        rw [update_self]
        rfl
  · have hdraw : drawLogged input logged.length p m = .error .outsideTable := by
      change (writeTable _ _ _ >>= _) = _
      rw [writeTable_of_ge hout]
      rfl
    rw [hdraw]
    exact ⟨rfl, by omega⟩

theorem ignitionMoves_eq (hn : 0 < n) (factor : ℤ) (input stack : ℤ → Char) (f : FractalMemory) :
    ∃ r, MoveEnd (Drawn f) (fun e => e = .outsideTable ∧ tableSize < n) factor n r ∧
      (∀ k, 2 * n ≤ k →
        moveLetters k (drawLetter input) (drawLogged input) factor n n ⟨stack, f⟩ = r) ∧
      ∀ k, moveLetters k (drawLetter input) (drawLogged input) factor n n ⟨stack, f⟩ = r ∨
        moveLetters k (drawLetter input) (drawLogged input) factor n n ⟨stack, f⟩ =
          .error .outOfFuel :=
  moveLetters_eq (drawLogged_spec input n) hn rfl
    ⟨one_pos, show 1 ≤ tableSize by decide, rfl, fun _ hi hi' => absurd hi' (not_lt.2 hi), rfl⟩

section

variable {P : List ℤ → Moved → Prop} {factor : ℤ} {r : Except Fault Moving}
  (h : MoveEnd P (fun e => e = .outsideTable ∧ tableSize < n) factor n r)
include h

theorem MoveEnd.of_le (hn : n ≤ tableSize) :
    ∃ m, r = .ok m ∧ MoveInv P factor n m ∧ m.seedLoop = n := by
  cases r with
  | error e => exact absurd h.2 (not_lt.2 hn)
  | ok m => exact ⟨m, rfl, h⟩

theorem MoveEnd.of_gt (hn : tableSize < n)
    (hP : ∀ logged m, P logged m → logged.length ≤ tableSize) : r = .error .outsideTable := by
  cases r with
  | error e => rw [h.1]
  | ok m =>
    have hle := hP _ _ h.1.kept
    rw [← h.1.seedLoop, h.2] at hle
    omega

end

theorem length_flatMap_drawn {obCache : ℕ → Text} (hn : 0 < n)
    (h : ∀ i, 0 < i → i < n → (obCache i).length = 1) :
    ((List.range n).flatMap obCache).length + 1 = (obCache 0).length + n := by
  induction n with
  | zero => exact absurd hn (lt_irrefl 0)
  | succ n ih =>
    rw [range_succ, flatMap_append, length_append]
    rcases Nat.eq_zero_or_pos n with rfl | hpos
    · simp
    · have hone := h n hpos (lt_succ_self n)
      have hrest := ih hpos fun i hi hi' => h i hi (lt_succ_of_lt hi')
      simp only [flatMap_cons, flatMap_nil, append_nil]
      omega

/-! ### `ignition` and `flameout` -/

theorem ignition_eq (fuel : ℕ) (t : Clocks) (stack : ℤ → Char) (text : Text) (f : FractalMemory) :
    ignition fuel t stack text.length text f = seedTmp fuel t text.length >>= fun seed_tmp =>
        moveLetters fuel (drawLetter (strcpy stack text)) (drawLogged (strcpy stack text))
          (moveFactor seed_tmp text.length) text.length text.length ⟨stack, f⟩ >>= fun m =>
            keyMaster text.length true m.moved.memory :=
  rfl

theorem flameout_eq (fuel : ℕ) (t : Clocks) (stack : ℤ → Char) (text : Text) (f : FractalMemory) :
    flameout fuel t stack text.length text f = seedTmp fuel t text.length >>= fun seed_tmp =>
        moveLetters fuel (placeLetter (strcpy stack text)) (placeLetter (strcpy stack text))
          (moveFactor seed_tmp text.length) text.length text.length ⟨stack, f⟩ >>= fun m =>
            keyTeeth m.moved.chOutputcount text.length 0 m.moved.memory.obCache >>= fun obCache =>
              keyMaster text.length false { m.moved.memory with obCache := obCache } :=
  rfl

/-- What `ignition` leaves: the text of the layer is the first entry of the cache and the other
letters. -/
def Ignited (n : ℕ) (f f' : FractalMemory) : Prop :=
  f'.obCache 0 = f.obCache 0 ∧ f'.obfuscatedCombinedString = f.obfuscatedCombinedString ∧
    f'.obfuscatedString.length + 1 = (f.obCache 0).length + n

theorem keyMaster_drawn (hn : 0 < n) (hle : n ≤ tableSize) {m : Moving} {factor : ℤ}
    (h : MoveInv (Drawn f) factor n m) (hall : m.seedLoop = n) :
    ∃ f', keyMaster n true m.moved.memory = .ok f' ∧ Ignited n f f' := by
  obtain ⟨-, -, hzero, hone, hcombined⟩ := h.kept
  rw [← h.seedLoop, hall] at hone
  rw [keyMaster, assembleKey_eq _ _ _ _ _ _ (by omega)]
  refine ⟨_, rfl, hzero, hcombined, ?_⟩
  rw [nil_append, ← range_eq_range', length_flatMap_drawn hn hone, hzero]

/-- The moves of a text that fits the tables stay within them. -/
theorem ignition_spec (hne : text ≠ []) (hle : text.length ≤ tableSize) (fuel : ℕ) (t : Clocks)
    (stack : ℤ → Char) (f : FractalMemory) :
    InBounds (ignition fuel t stack text.length text f) ∧
      ∀ f', ignition fuel t stack text.length text f = .ok f' → Ignited text.length f f' := by
  have hn := length_pos_iff.2 hne
  rw [ignition_eq]
  cases hseed : seedTmp fuel t text.length with
  | error e =>
    rw [seedTmp_inBounds hn.ne' fuel t e hseed]
    exact ⟨inBounds_outOfFuel, fun _ h => by cases h⟩
  | ok seed_tmp =>
    obtain ⟨r, hend, -, hany⟩ := ignitionMoves_eq hn (moveFactor seed_tmp text.length)
      (strcpy stack text) stack f
    obtain ⟨m, rfl, hinv, hall⟩ := hend.of_le hle
    obtain ⟨f', hkey, hdone⟩ := keyMaster_drawn hn hle hinv hall
    change InBounds (moveLetters _ _ _ _ _ _ _ >>= fun m =>
      keyMaster text.length true m.moved.memory) ∧ ∀ f', (moveLetters _ _ _ _ _ _ _ >>= fun m =>
        keyMaster text.length true m.moved.memory) = .ok f' → _
    rcases hany fuel with heq | heq
    · rw [heq]
      change InBounds (keyMaster text.length true m.moved.memory) ∧
        ∀ f', keyMaster text.length true m.moved.memory = .ok f' → _
      rw [hkey]
      exact ⟨inBounds_ok f', fun f'' h => ok.inj h ▸ hdone⟩
    · rw [heq]
      exact ⟨inBounds_outOfFuel, fun _ h => by cases h⟩

/-- `ignition` ends: with a fault if the text does not fit the tables. -/
theorem ignition_ends (hn : 0 < n) (hn' : n < 2 ^ 31)
    (ht : (2 ^ 31 : ℤ) ≤ (t.seed_1 + t.seed_2).toInt) :
    ∃ k, ∀ fuel, k ≤ fuel → ∀ stack text f, text.length = n →
      if n ≤ tableSize then ∃ f', ignition fuel t stack text.length text f = .ok f'
      else ignition fuel t stack text.length text f = .error .outsideTable := by
  have htimes : (n : ℤ) ≤ (t.seed_1 + t.seed_2).toInt := by omega
  obtain ⟨k, q, hseed, -, -⟩ := seedTmp_ends hn (by omega) htimes
  refine ⟨max k (2 * n), fun fuel hfuel stack text f hlen => ?_⟩
  obtain ⟨r, hend, hrun, -⟩ := ignitionMoves_eq hn (moveFactor (.fin q) n) (strcpy stack text)
    stack f
  rw [ignition_eq, hlen, hseed fuel (by omega)]
  change if n ≤ tableSize then ∃ f', (moveLetters fuel _ _ _ n n _ >>= fun m =>
    keyMaster n true m.moved.memory) = .ok f' else (moveLetters fuel _ _ _ n n _ >>= fun m =>
      keyMaster n true m.moved.memory) = .error .outsideTable
  rw [hrun fuel (by omega)]
  split_ifs with hle
  · obtain ⟨m, rfl, hinv, hall⟩ := hend.of_le hle
    obtain ⟨f', hkey, -⟩ := keyMaster_drawn hn hle hinv hall
    exact ⟨f', hkey⟩
  · rw [hend.of_gt (by omega) fun _ _ h => h.2.1]
    rfl

theorem flameout_inBounds (hne : text ≠ []) (hle : text.length ≤ tableSize) (fuel : ℕ)
    (t : Clocks) (stack : ℤ → Char) (f : FractalMemory) :
    InBounds (flameout fuel t stack text.length text f) := by
  have hn := length_pos_iff.2 hne
  rw [flameout_eq]
  refine (seedTmp_inBounds hn.ne' fuel t).bind fun seed_tmp _ => ?_
  obtain ⟨r, hend, -, hany⟩ := flameoutMoves_eq hn (moveFactor seed_tmp text.length)
    (strcpy stack text) ⟨stack, f⟩
  obtain ⟨m, rfl, -, -⟩ := hend.of_le hle
  rcases hany fuel with heq | heq
  · rw [heq]
    change InBounds (keyTeeth m.moved.chOutputcount text.length 0 m.moved.memory.obCache >>=
      fun obCache => keyMaster text.length false { m.moved.memory with obCache := obCache })
    rw [keyMaster_finished hle]
    exact inBounds_ok _
  · rw [heq]
    exact inBounds_outOfFuel

theorem flameout_outside (hn : tableSize < n) (hn' : n < 2 ^ 31)
    (ht : (2 ^ 31 : ℤ) ≤ (t.seed_1 + t.seed_2).toInt) :
    ∃ k, ∀ fuel, k ≤ fuel → ∀ stack text f, text.length = n →
      flameout fuel t stack text.length text f = .error .outsideTable := by
  have htimes : (n : ℤ) ≤ (t.seed_1 + t.seed_2).toInt := by omega
  obtain ⟨k, q, hseed, -, -⟩ := seedTmp_ends (zero_lt_of_lt hn) (by omega) htimes
  refine ⟨max k (2 * n), fun fuel hfuel stack text f hlen => ?_⟩
  obtain ⟨r, hend, hrun, -⟩ := flameoutMoves_eq (zero_lt_of_lt hn) (moveFactor (.fin q) n)
    (strcpy stack text) ⟨stack, f⟩
  rw [flameout_eq, hlen, hseed fuel (by omega)]
  change (moveLetters fuel _ _ _ n n _ >>= _) = _
  rw [hrun fuel (by omega), hend.of_gt hn fun _ _ h => h.1]
  rfl

end Espers
