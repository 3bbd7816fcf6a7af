import Mathlib.Data.List.Nodup
import Mathlib.Data.List.Perm.Subperm
import Espers.Fractal.Flameout

/-!
# The loop over the letters

The positions of the letters are kept in a log.  A position is not used twice, and the counter that
runs down leaves used positions behind it.

* `dropMove_eq_iff` : when a number is halved to the length.
* `moveStep_spec` : what one round of the loop keeps.
* `moveLetters_run` : **the loop ends**, after fewer rounds than twice the length.
* `flameoutMoves_eq` : the letters of a text are moved, or the table of the moves is too short.
-/

namespace Espers

open List Function Nat

/-! ### Halving -/

variable {n : ℕ} {p v factor : ℤ}

theorem dropMove_le (n : ℕ) (v : ℤ) : dropMove n v ≤ n := by
  fun_induction dropMove n v with
  | case1 v _ ih => exact ih
  | case2 v h => omega

theorem dropMove_nonneg (h : 0 ≤ v) : 0 ≤ dropMove n v := by
  fun_induction dropMove n v with
  | case1 v hlt ih => exact ih (by omega)
  | case2 v _ => exact h

/-- A number is halved to the length exactly if it lies between two multiples by a power of two. -/
theorem dropMove_eq_iff (hn : 0 < n) :
    dropMove n v = n ↔ ∃ j : ℕ, (n * 2 ^ j : ℤ) ≤ v ∧ v < (n + 1) * 2 ^ j := by
  fun_induction dropMove n v with
  | case1 v hlt ih =>
    rw [ih]
    constructor
    · rintro ⟨j, hlow, hhigh⟩
      refine ⟨j + 1, ?_, ?_⟩
      · rw [pow_succ, ← mul_assoc]
        omega
      · rw [pow_succ, ← mul_assoc]
        omega
    · rintro ⟨_ | j, hlow, hhigh⟩
      · simp only [pow_zero] at hhigh
        omega
      · rw [pow_succ, ← mul_assoc] at hlow hhigh
        exact ⟨j, by omega, by omega⟩
  | case2 v hle =>
    constructor
    · intro h
      exact ⟨0, by rw [pow_zero, mul_one]; omega, by rw [pow_zero, mul_one]; omega⟩
    · rintro ⟨j, hlow, -⟩
      have hj : (n : ℤ) * 1 ≤ n * 2 ^ j :=
        mul_le_mul_of_nonneg_left (one_le_pow₀ (by decide)) (by omega)
      omega

/-! ### The loop over the letters -/

theorem collisionCheck_eq {logged : List ℤ} (h : logged ≠ []) (collision : Bool) :
    collisionCheck p logged collision = decide (p ∈ logged) := by
  induction logged generalizing collision with
  | nil => exact absurd rfl h
  | cons q logged ih =>
    rw [collisionCheck]
    by_cases hq : q = p
    · rw [if_pos hq, hq, decide_eq_true (.head _)]
    · rw [if_neg hq]
      cases logged with
      | nil => simp [collisionCheck, Ne.symm hq]
      | cons q' logged =>
        rw [ih (cons_ne_nil _ _)]
        simp [Ne.symm hq]

/-- The number that the factor is multiplied with for a letter. -/
def moveCount (n i : ℕ) : ℕ := if i = 0 then firstCount n else i / 3

/-- The position that is tried first for a letter. -/
def triedFirst (factor : ℤ) (n i : ℕ) : ℤ := dropMove n (factor * moveCount n i)

/-- What the loop over the letters keeps; `P` is kept by what it writes. -/
structure MoveInv (P : List ℤ → Moved → Prop) (factor : ℤ) (n : ℕ) (m : Moving) : Prop where
  seedLoop : m.seedLoop = m.loggedUsedPositions.length
  pos : 0 < m.seedLoop
  le : m.seedLoop ≤ n
  nodup : m.loggedUsedPositions.Nodup
  /-- The positions from the counter on are used, or the last of them is being tried. -/
  covered : ∀ p : ℕ, m.colRep ≤ p → p < n →
    (p : ℤ) ∈ m.loggedUsedPositions ∨ m.collision = true ∧ m.obMove = p
  attempted : ∀ i < m.seedLoop, triedFirst factor n i ∈ m.loggedUsedPositions
  colliding : m.collision = true → triedFirst factor n m.seedLoop ∈ m.loggedUsedPositions ∧
    0 ≤ m.obMove ∧ m.obMove < n
  range : ∀ p ∈ m.loggedUsedPositions, (0 ≤ p ∧ p < n) ∨ ∃ i < n, p = triedFirst factor n i
  colRep : m.colRep ≤ n
  kept : P m.loggedUsedPositions m.moved

variable {P : List ℤ → Moved → Prop}

theorem MoveInv.colRep_pos {m : Moving} (h : MoveInv P factor n m)
    (hlt : m.seedLoop < n) (hused : m.collision = true → m.obMove ∈ m.loggedUsedPositions) :
    0 < m.colRep := by
  by_contra hzero
  have hall : (List.range n).map Nat.cast ⊆ m.loggedUsedPositions := by
    intro q hq
    obtain ⟨p, hp, rfl⟩ := mem_map.1 hq
    rcases h.covered p (by omega) (mem_range.1 hp) with hin | ⟨hcol, heq⟩
    · exact hin
    · exact heq ▸ hused hcol
  have hnodup : ((List.range n).map (Nat.cast : ℕ → ℤ)).Nodup :=
    nodup_range.map cast_injective
  have hle := (subperm_of_subset hnodup hall).length_le
  rw [length_map, length_range, ← h.seedLoop] at hle
  omega

/-- How the loop over the letters ends: with all letters moved, or with a fault. -/
def MoveEnd (P : List ℤ → Moved → Prop) (Q : Fault → Prop) (factor : ℤ) (n : ℕ) :
    Except Fault Moving → Prop
  | .error e => Q e
  | .ok m => MoveInv P factor n m ∧ m.seedLoop = n

section

variable {place : ℕ → ℤ → Moved → Except Fault Moved} {Q : Fault → Prop}
  (hplace : ∀ logged p moved, P logged moved → logged.length < n → p ∉ logged →
    match place logged.length p moved with
    | .error e => Q e
    | .ok moved => P (logged ++ [p]) moved)
include hplace

/-- One round keeps the invariant, or ends the loop with all letters moved or with the fault of what
it writes. -/
theorem moveStep_spec {m : Moving} (h : MoveInv P factor n m) :
    match moveStep place factor n m with
    | .inl m' => MoveInv P factor n m' ∧
      (n - m'.seedLoop) + m'.colRep < (n - m.seedLoop) + m.colRep
    | .inr r => MoveEnd P Q factor n r := by
  have hne : m.loggedUsedPositions ≠ [] := by
    intro hnil
    have hlen := h.seedLoop
    have hpos := h.pos
    rw [hnil, length_nil] at hlen
    omega
  by_cases hlt : m.seedLoop < n
  · obtain ⟨q, hq⟩ : ∃ q, q = if m.collision then m.obMove
        else dropMove n (factor * (m.seedLoop / 3 : ℕ)) := ⟨_, rfl⟩
    have hattempt : m.collision = false → q = triedFirst factor n m.seedLoop := by
      intro hcol
      rw [hq, hcol, triedFirst, moveCount, if_neg h.pos.ne']
      rfl
    by_cases hmem : q ∈ m.loggedUsedPositions
    · -- the next position from the end
      have hcol := h.colRep_pos hlt fun hcol => by rwa [hq, if_pos hcol] at hmem
      have hstep : moveStep place factor n m = .inl { m with
          obMove := (m.colRep - 1 : ℕ), collision := true, colRep := m.colRep - 1 } := by
        rw [moveStep, if_pos hlt]
        simp only [← hq, collisionCheck_eq hne, hmem, decide_true, if_true, if_pos hcol]
      rw [hstep]
      refine ⟨⟨h.seedLoop, h.pos, h.le, h.nodup, ?_, h.attempted, ?_, h.range, ?_, h.kept⟩, ?_⟩
      · intro p hp hpn
        rcases eq_or_lt_of_le hp with heq | hgt
        · exact .inr ⟨rfl, by rw [← heq]⟩
        · rcases h.covered p (by have := hgt; simp only at this; omega) hpn with hin | ⟨hc, heq⟩
          · exact .inl hin
          · rw [hq, if_pos hc, heq] at hmem
            exact .inl hmem
      · intro _
        have hle := h.colRep
        refine ⟨?_, by simp, by simp only; omega⟩
        cases hc : m.collision with
        | true => exact (h.colliding hc).1
        | false => exact hattempt hc ▸ hmem
      · have hle := h.colRep
        simp only
        omega
      · simp only
        omega
    · have hcheck : collisionCheck q m.loggedUsedPositions m.collision = false := by
        rw [collisionCheck_eq hne, decide_eq_false hmem]
      have hspec := hplace m.loggedUsedPositions q m.moved h.kept (h.seedLoop ▸ hlt) hmem
      rw [← h.seedLoop] at hspec
      rw [moveStep, if_pos hlt]
      simp only [← hq, hcheck]
      cases hmoved : place m.seedLoop q m.moved with
      | error e =>
        rw [hmoved] at hspec
        exact hspec
      | ok moved =>
        rw [hmoved] at hspec
        refine ⟨⟨?_, succ_pos _, hlt, ?_, ?_, ?_, ?_, ?_, h.colRep, hspec⟩, ?_⟩
        · rw [length_append, ← h.seedLoop]
          rfl
        · exact nodup_append.2 ⟨h.nodup, nodup_singleton q, fun a ha b hb => by
            rw [mem_singleton.1 hb]
            exact fun heq => hmem (heq ▸ ha)⟩
        · intro p hp hpn
          refine .inl (mem_append.2 ?_)
          rcases h.covered p hp hpn with hin | ⟨hc, heq⟩
          · exact .inl hin
          · rw [hq, if_pos hc, heq]
            exact .inr (.head _)
        · intro i hi
          refine mem_append.2 ?_
          rcases Nat.lt_succ_iff_lt_or_eq.1 hi with hlt' | rfl
          · exact .inl (h.attempted i hlt')
          · cases hc : m.collision with
            | true => exact .inl (h.colliding hc).1
            | false => exact .inr (hattempt hc ▸ .head _)
        · intro hc
          cases hc
        · intro p hp
          rcases mem_append.1 hp with hp | hp
          · exact h.range p hp
          · rw [mem_singleton.1 hp]
            cases hc : m.collision with
            | true =>
              rw [hq, if_pos hc]
              exact .inl (h.colliding hc).2
            | false => exact .inr ⟨m.seedLoop, hlt, hattempt hc⟩
        · simp only
          omega
  · rw [moveStep, if_neg hlt]
    exact ⟨h, by have := h.le; omega⟩

/-- **The loop over the letters ends**, with a position for each letter and none used twice, or with
the fault of what it writes. -/
theorem moveLetters_run (hn : 0 < n) (factor : ℤ) {moved : Moved}
    (hP : P [triedFirst factor n 0] moved) :
    ∃ r, Loop.run (moveStep place factor n) (2 * n) (.start factor n n moved) = some r ∧
      MoveEnd P Q factor n r := by
  have hstart : MoveInv P factor n (.start factor n n moved) := by
    refine ⟨rfl, one_pos, hn, nodup_singleton _, ?_, ?_, ?_, ?_, le_rfl, hP⟩
    · intro p hp hpn
      exact absurd hpn (not_lt.2 hp)
    · intro i hi
      rw [lt_one_iff.1 hi]
      exact .head _
    · intro hc
      cases hc
    · intro p hp
      rw [mem_singleton.1 hp]
      exact .inr ⟨0, hn, rfl⟩
  obtain ⟨r, hr, hq⟩ := Loop.exists_run (MoveInv P factor n) (MoveEnd P Q factor n)
    (fun m => (n - m.seedLoop) + m.colRep)
    (fun m m' h (hm : moveStep place factor n m = .inl m') => by
      have hspec := moveStep_spec hplace h
      rw [hm] at hspec
      exact hspec)
    (fun m r h (hm : moveStep place factor n m = .inr r) => by
      have hspec := moveStep_spec hplace h
      rw [hm] at hspec
      exact hspec) hstart
  have hrounds : (n - (Moving.start factor n n moved).seedLoop) +
      (Moving.start factor n n moved).colRep + 1 = 2 * n := by
    change n - 1 + n + 1 = 2 * n
    omega
  rw [hrounds] at hr
  exact ⟨r, hr, hq⟩

/-- The moves of a run that ends are those of any run that ends. -/
theorem moveLetters_eq {first : ℕ → ℤ → Moved → Except Fault Moved} (hn : 0 < n)
    {moved moved' : Moved}
    (hfirst : first 0 (triedFirst factor n 0) moved = .ok moved')
    (hP : P [triedFirst factor n 0] moved') :
    ∃ r, MoveEnd P Q factor n r ∧
      (∀ k, 2 * n ≤ k → moveLetters k first place factor n n moved = r) ∧
      ∀ k, moveLetters k first place factor n n moved = r ∨
        moveLetters k first place factor n n moved = .error .outOfFuel := by
  obtain ⟨r, hr, hend⟩ := moveLetters_run hplace hn factor hP
  have hrun : ∀ k, moveLetters k first place factor n n moved =
      (withinFuel (Loop.run (moveStep place factor n) k (.start factor n n moved')) >>= id) := by
    intro k
    change (first 0 (triedFirst factor n 0) moved >>= _) = _
    rw [hfirst]
    rfl
  refine ⟨r, hend, fun k hk => ?_, fun k => ?_⟩
  · rw [hrun, Loop.run_mono hk hr]
    rfl
  · rw [hrun]
    cases hk : Loop.run (moveStep place factor n) k (.start factor n n moved') with
    | none => exact .inr rfl
    | some r' =>
      have heq : r' = r := Loop.Ends.unique ⟨k, hk⟩ ⟨_, hr⟩
      rw [heq]
      exact .inl rfl

end

/-! ### The moves of a text -/

variable {table : ℕ → Text}

theorem readTable_of_lt {i : ℕ} (h : i < tableSize) : readTable table i = .ok (table i) :=
  if_pos h

theorem writeTable_of_lt {i : ℕ} {s : Text} (h : i < tableSize) :
    writeTable table i s = .ok (Function.update table i s) :=
  if_pos h

theorem writeTable_of_ge {i : ℕ} {s : Text} (h : tableSize ≤ i) :
    writeTable table i s = .error .outsideTable :=
  if_neg (not_lt.2 h)

/-- What `flameout` has written for the positions of the log. -/
def Placed (input : ℤ → Char) (logged : List ℤ) (m : Moved) : Prop :=
  logged.length ≤ tableSize ∧ ∀ (i : ℕ) (p : ℤ), logged[i]? = some p →
    m.chOutputcount p = input i ∧ m.memory.wordLetterMovements i = toText p ++ ['B']

theorem placeLetter_spec (input : ℤ → Char) (n : ℕ) (logged : List ℤ) (p : ℤ) (m : Moved)
    (h : Placed input logged m) (hlt : logged.length < n) (hp : p ∉ logged) :
    match placeLetter input logged.length p m with
    | .error e => e = .outsideTable ∧ tableSize < n
    | .ok m => Placed input (logged ++ [p]) m := by
  obtain ⟨hlen, hspec⟩ := h
  rcases lt_or_ge logged.length tableSize with hin | hout
  · have hplace : placeLetter input logged.length p m =
        .ok ⟨Function.update m.chOutputcount p (input logged.length), { m.memory with
          wordLetterMovements := Function.update m.memory.wordLetterMovements logged.length
            (toText p ++ ['B']) }⟩ := by
      change (writeTable _ _ _ >>= _) = _
      rw [writeTable_of_lt hin]
      rfl
    rw [hplace]
    refine ⟨by rw [length_append]; exact hin, fun i q hq => ?_⟩
    rcases lt_or_ge i logged.length with hi | hi
    · rw [getElem?_append_left hi] at hq
      obtain ⟨hout, hmove⟩ := hspec i q hq
      have hne : q ≠ p := fun heq => hp (heq ▸ mem_of_getElem? hq)
      simp only [update_of_ne hne, update_of_ne hi.ne]
      exact ⟨hout, hmove⟩
    · rw [getElem?_append_right hi] at hq
      obtain ⟨hzero, hpq⟩ := List.getElem?_eq_some_iff.1 hq
      have hi' : i = logged.length := by
        rw [length_singleton] at hzero
        omega
      subst hi'
      obtain rfl : p = q := by
        rw [← hpq]
        simp
      exact ⟨update_self .., update_self ..⟩
  · have hplace : placeLetter input logged.length p m = .error .outsideTable := by
      change (writeTable _ _ _ >>= _) = _
      rw [writeTable_of_ge hout]
      rfl
    rw [hplace]
    exact ⟨rfl, by omega⟩

/-- The letters of a text are moved, or the table of the moves is too short. -/
theorem flameoutMoves_eq (hn : 0 < n) (factor : ℤ) (input : ℤ → Char) (m : Moved) :
    ∃ r, MoveEnd (Placed input) (fun e => e = .outsideTable ∧ tableSize < n) factor n r ∧
      (∀ k, 2 * n ≤ k → moveLetters k (placeLetter input) (placeLetter input) factor n n m = r) ∧
      ∀ k, moveLetters k (placeLetter input) (placeLetter input) factor n n m = r ∨
        moveLetters k (placeLetter input) (placeLetter input) factor n n m = .error .outOfFuel := by
  have hnil : Placed input [] m := ⟨zero_le _, fun i p hp => by simp at hp⟩
  have hfirst := placeLetter_spec input 1 [] (triedFirst factor n 0) m hnil one_pos
    not_mem_nil
  rw [length_nil] at hfirst
  cases hplaced : placeLetter input 0 (triedFirst factor n 0) m with
  | error e =>
    rw [hplaced] at hfirst
    exact absurd hfirst.2 (by decide)
  | ok moved =>
    rw [hplaced] at hfirst
    exact moveLetters_eq (placeLetter_spec input n) hn hplaced hfirst

end Espers
