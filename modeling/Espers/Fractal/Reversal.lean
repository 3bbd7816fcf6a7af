import Espers.Fractal.Moves
import Espers.Fractal.Seed

/-!
# The letters are moved back

* `of_flameout`, `flameout_ends` : what `flameout` leaves when it returns, and when it does.
* `reassembly_eq` : by the key the letters come back from their positions.
* `flameout_reversible_iff` : **the text comes back exactly if no position is the length**, which
  the halving lets through.
-/

namespace Espers

open Tokens List Function Nat Except
open Option (some bind_some getD_some)

variable {n fuel : ℕ} {factor : ℤ} {t : Clocks} {text : Text} {stack : ℤ → Char}
  {f f' : FractalMemory}

/-! ### The key -/

theorem keyTeeth_eq (out : ℤ → Char) (left i : ℕ) (obCache : ℕ → Text)
    (h : i + left ≤ tableSize) : keyTeeth out left i obCache =
      .ok fun k => if i ≤ k ∧ k < i + left then [out k] else obCache k := by
  induction left generalizing i obCache with
  | zero =>
    rw [keyTeeth]
    congr
    funext k
    rw [if_neg (by omega)]
  | succ left ih =>
    rw [keyTeeth, writeTable_of_lt (by omega)]
    change keyTeeth out left (i + 1) _ = _
    rw [ih (i + 1) _ (by omega)]
    congr
    funext k
    by_cases hk : k = i
    · subst hk
      rw [if_neg (by omega), if_pos (by omega), update_self]
    · rw [update_of_ne hk]
      by_cases hin : i ≤ k ∧ k < i + (left + 1)
      · rw [if_pos hin, if_pos (by omega)]
      · rw [if_neg hin, if_neg (by omega)]

theorem assembleKey_eq (teeth key : ℕ → Text) (left i : ℕ) (a b : Text) (h : i + left ≤ tableSize) :
    assembleKey teeth key left i a b =
      .ok (a ++ (List.range' i left).flatMap teeth, b ++ (List.range' i left).flatMap key) := by
  induction left generalizing i a b with
  | zero => simp [assembleKey]
  | succ left ih =>
    rw [assembleKey, readTable_of_lt (by omega), readTable_of_lt (by omega)]
    change assembleKey teeth key left (i + 1) _ _ = _
    rw [ih (i + 1) _ _ (by omega), range'_succ, flatMap_cons, flatMap_cons,
      append_assoc, append_assoc]

/-- What `flameout` leaves when the letters are moved. -/
def finished (n : ℕ) (m : Moved) : FractalMemory := { m.memory with
  obCache := fun k => if 0 ≤ k ∧ k < 0 + n then [m.chOutputcount k] else m.memory.obCache k
  obfuscatedCombinedString := (List.range n).map fun k : ℕ => m.chOutputcount k
  singleLayerKey := (List.range n).flatMap m.memory.wordLetterMovements }

theorem keyMaster_finished (h : n ≤ tableSize) (m : Moved) :
    (keyTeeth m.chOutputcount n 0 m.memory.obCache >>= fun obCache =>
      keyMaster n false { m.memory with obCache := obCache }) = .ok (finished n m) := by
  rw [keyTeeth_eq _ _ _ _ (by omega)]
  change keyMaster n false _ = _
  rw [keyMaster]
  rw [assembleKey_eq _ _ _ _ _ _ (by omega)]
  have hteeth : (List.range n).flatMap (fun k => if 0 ≤ k ∧ k < 0 + n then [m.chOutputcount k]
      else m.memory.obCache k) = (List.range n).map fun k : ℕ => m.chOutputcount k := by
    rw [map_eq_flatMap]
    refine flatMap_congr fun k hk => if_pos ?_
    rw [mem_range] at hk
    omega
  rw [← range_eq_range', nil_append, nil_append, hteeth]
  rfl

/-- What has happened when `flameout` returns. -/
theorem of_flameout (hne : text ≠ []) (hlen : text.length ≤ tableSize)
    (h : flameout fuel t stack text.length text f = .ok f') :
    ∃ seed_tmp m, seedTmp fuel t text.length = .ok seed_tmp ∧
      MoveInv (Placed (strcpy stack text)) (moveFactor seed_tmp text.length) text.length m ∧
      m.seedLoop = text.length ∧ f' = finished text.length m.moved := by
  rw [flameout] at h
  cases hseed : seedTmp fuel t text.length with
  | error e =>
    rw [hseed] at h
    cases h
  | ok seed_tmp =>
    rw [hseed] at h
    obtain ⟨r, hend, -, hany⟩ := flameoutMoves_eq (length_pos_iff.2 hne)
      (moveFactor seed_tmp text.length) (strcpy stack text) ⟨stack, f⟩
    change (moveLetters fuel _ _ _ _ _ _ >>= fun m =>
      keyTeeth m.moved.chOutputcount text.length 0 m.moved.memory.obCache >>= fun obCache =>
        keyMaster text.length false { m.moved.memory with obCache := obCache }) = .ok f' at h
    rcases hany fuel with heq | heq
    · rw [heq] at h
      cases r with
      | error e => cases h
      | ok m =>
        change (keyTeeth m.moved.chOutputcount text.length 0 m.moved.memory.obCache >>=
          fun obCache => keyMaster text.length false
            { m.moved.memory with obCache := obCache }) = .ok f' at h
        rw [keyMaster_finished hlen] at h
        exact ⟨seed_tmp, m, rfl, hend.1, hend.2, (ok.inj h).symm⟩
    · rw [heq] at h
      cases h

/-- `flameout` returns if the times are not below the length. -/
theorem flameout_ends (hne : text ≠ []) (hlen : text.length ≤ tableSize)
    (h : (text.length : ℤ) ≤ (t.seed_1 + t.seed_2).toInt) (stack : ℤ → Char) (f : FractalMemory) :
    ∃ fuel f', flameout fuel t stack text.length text f = .ok f' := by
  have hn := length_pos_iff.2 hne
  obtain ⟨k, q, hseed, -, -⟩ := seedTmp_ends hn
    (lt_of_le_of_lt hlen (by decide)) h
  obtain ⟨r, hend, hrun, -⟩ := flameoutMoves_eq hn (moveFactor (.fin q) text.length)
    (strcpy stack text) ⟨stack, f⟩
  refine ⟨max k (2 * text.length), ?_⟩
  rw [flameout, hseed _ (le_max_left _ _)]
  change ∃ f', (moveLetters _ _ _ _ _ _ _ >>= fun m =>
    keyTeeth m.moved.chOutputcount text.length 0 m.moved.memory.obCache >>= fun obCache =>
      keyMaster text.length false { m.moved.memory with obCache := obCache }) = .ok f'
  rw [hrun _ (le_max_right _ _)]
  cases r with
  | error e => exact absurd hend.2 (not_lt.2 hlen)
  | ok m => exact ⟨_, keyMaster_finished hlen m.moved⟩

/-! ### The text comes back -/

theorem toText_natCast (p : ℕ) : toText p = Nat.toDigits 10 p := toList_repr

theorem toText_inj {a b : ℕ} (h : toText a = toText b) : a = b := by
  rw [toText_natCast, toText_natCast] at h
  rw [← ofDigitChars_ten_toDigits (n := a), h, ofDigitChars_ten_toDigits]

theorem digits_toText {p : ℕ} {c : Char} (h : c ∈ toText p) : c.isDigit = true := by
  rw [toText_natCast] at h
  exact isDigit_of_mem_toDigits (by decide) le_rfl h

theorem toText_ne_nil (p : ℕ) : toText p ≠ [] := by
  rw [toText_natCast]
  exact toDigits_ne_nil

theorem notMem_toText {c : Char} (hc : c.isDigit = false) (p : ℕ) : c ∉ toText p := by
  intro h
  rw [digits_toText h] at hc
  cases hc

/-- A position is read back. -/
theorem stoi_toText {p : ℕ} (hp : p < 2 ^ 31) : stoi (toText p) = some (p : ℤ) := by
  obtain ⟨c, rest, hcons⟩ := exists_cons_of_ne_nil (toText_ne_nil p)
  have hc : c.isDigit = true := digits_toText (p := p) (by rw [hcons]; exact .head rest)
  have hne : ∀ d : Char, d.isDigit = false → c ≠ d := fun d hd heq => by
    rw [heq, hd] at hc
    cases hc
  have hspace : (toText p).dropWhile (fun c => c ∈ [' ', '\t', '\n', '\x0b', '\x0c', '\r']) =
      toText p := by
    rw [hcons, dropWhile_cons_of_neg]
    simp only [decide_eq_true_eq, mem_cons, not_mem_nil, or_false, not_or]
    exact ⟨hne _ rfl, hne _ rfl, hne _ rfl, hne _ rfl, hne _ rfl, hne _ rfl⟩
  have hminus : (toText p).head? ≠ some '-' := by
    rw [hcons, head?_cons]
    exact fun heq => hne _ rfl (some.inj heq)
  have hplus : (toText p).head? ≠ some '+' := by
    rw [hcons, head?_cons]
    exact fun heq => hne _ rfl (some.inj heq)
  have hdigits : (toText p).takeWhile Char.isDigit = toText p :=
    takeWhile_eq_self_iff.2 fun _ => digits_toText
  have hvalue : (Nat.ofDigitChars 10 (toText p) 0 : ℤ) = p := by
    rw [toText_natCast, ofDigitChars_ten_toDigits]
  simp only [stoi, hspace, hminus, hplus, or_self, if_false, hdigits, hvalue]
  exact if_pos ⟨toText_ne_nil p, by omega, by omega⟩

/-- A piece of the key. -/
def keyPiece (p : ℕ) : Text := toText p ++ ['B']

/-- The key is read piece by piece. -/
theorem extractKey_eq (teeth : ℤ → Char) (positions : List ℕ) (k : ℕ) (obCache : ℕ → Text)
    (hlt : ∀ p ∈ positions, p < 2 ^ 31) (hlen : k + positions.length ≤ tableSize) : ∃ obCache',
      extractKey teeth positions.length k (next 'B' (positions.flatMap keyPiece ++ ['_'])) obCache =
        some obCache' ∧ (∀ j < k, obCache' j = obCache j) ∧
      ∀ i p : ℕ, positions[i]? = some p → obCache' (k + i) = [teeth p] := by
  induction positions generalizing k obCache with
  | nil =>
    refine ⟨obCache, ?_, fun _ _ => rfl, fun i p hp => by simp at hp⟩
    rw [flatMap_nil, nil_append, next_self (cons_ne_nil _ _) (by decide), length_nil, extractKey]
  | cons p positions ih =>
    rw [length_cons] at hlen
    obtain ⟨obCache', hrun, hbefore, hafter⟩ := ih (k + 1)
      (update obCache k [teeth p]) (fun q hq => hlt q (.tail _ hq)) (by omega)
    refine ⟨obCache', ?_, fun j hj => ?_, ?_⟩
    · have hnext : next 'B' ((p :: positions).flatMap keyPiece ++ ['_']) =
          some (toText p, positions.flatMap keyPiece ++ ['_']) := by
        rw [flatMap_cons, keyPiece, append_assoc, append_assoc,
          singleton_append, next_append_cons (toText_ne_nil p) (notMem_toText rfl p)]
      rw [hnext, length_cons, extractKey, stoi_toText (hlt p (.head _)), Option.bind_eq_bind,
        bind_some, writeTable_of_lt (by omega)]
      exact hrun
    · rw [hbefore j (by omega), update_of_ne (by omega)]
    · rintro (_ | i) q hq
      · cases hq
        rw [add_zero, hbefore k (by omega), update_self]
      · rw [← hafter i q hq]
        congr 1
        omega

theorem count_keyPieces (positions : List ℕ) :
    (positions.flatMap keyPiece).count 'B' = positions.length := by
  induction positions with
  | nil => rfl
  | cons p positions ih =>
    rw [flatMap_cons, count_append, ih, keyPiece, count_append,
      count_eq_zero_of_not_mem (notMem_toText rfl p), count_singleton_self,
      length_cons]
    omega

theorem cStr_of_notMem {s : Text} (h : '\x00' ∉ s) : cStr s = s :=
  takeWhile_eq_self_iff.2 fun c hc => by
    simp only [decide_eq_true_eq]
    exact fun heq => h (heq ▸ hc)

theorem strcpy_of_getElem? {s : Text} (h : '\x00' ∉ s) {i : ℕ} {c : Char} (hc : s[i]? = some c) :
    strcpy stack s i = c := by
  obtain ⟨hi, hget⟩ := List.getElem?_eq_some_iff.1 hc
  rw [strcpy, if_pos (Int.natCast_nonneg i), cStr_of_notMem h, Int.toNat_natCast,
    getD_eq_getElem?_getD, getElem?_append_left hi, hc, getD_some]

/-- **By the key the letters come back from their positions.** -/
theorem reassembly_eq {teeth : Text} {positions : List ℕ} (hlen : positions.length = text.length)
    (hfit : text.length ≤ tableSize) (hteeth : '\x00' ∉ teeth) (hlt : ∀ p ∈ positions, p < 2 ^ 31)
    (hget : ∀ i p : ℕ, positions[i]? = some p → ∃ c, teeth[p]? = some c ∧ text[i]? = some c)
    (stack : ℤ → Char) (g : FractalMemory) : ∃ g',
      reassembly stack teeth (positions.flatMap keyPiece) g = some g' ∧
        g'.plainTextCombinedString = g.plainTextCombinedString ++ text := by
  have hkey : '\x00' ∉ positions.flatMap keyPiece ++ ['_'] := by
    rw [mem_append, mem_flatMap]
    rintro (⟨p, -, hp⟩ | h)
    · rcases mem_append.1 hp with h | h
      · exact notMem_toText rfl p h
      · revert h
        decide
    · revert h
      decide
  obtain ⟨obCache', hrun, -, hcache⟩ := extractKey_eq (strcpy stack (teeth ++ ['_'])) positions 0
    g.obCache hlt (by omega)
  refine ⟨{ g with
    obCache := obCache'
    plainTextCombinedString := g.plainTextCombinedString ++ text }, ?_, rfl⟩
  rw [reassembly, count_keyPieces, cStr_of_notMem hkey]
  simp only [hrun, Option.bind_eq_bind, bind_some]
  -- the entries of the cache are the letters of the text
  have hsame : (List.range positions.length).flatMap obCache' = text := by
    have hpoint : ∀ i ∈ List.range positions.length, obCache' i = [text.getD i '\x00'] := by
      intro i hi
      rw [mem_range] at hi
      obtain ⟨c, hc, htext⟩ := hget i _ (getElem?_eq_getElem hi)
      have hentry := hcache i _ (getElem?_eq_getElem hi)
      have hsafe : '\x00' ∉ teeth ++ ['_'] := by
        rw [mem_append]
        rintro (h | h)
        · exact hteeth h
        · revert h
          decide
      have hteeth' : (teeth ++ ['_'])[positions[i]]? = some c := by
        rw [List.getElem?_append_left (List.getElem?_eq_some_iff.1 hc).1, hc]
      rw [zero_add, strcpy_of_getElem? hsafe hteeth'] at hentry
      rw [hentry, getD_eq_getElem?_getD, htext, getD_some]
    rw [flatMap_congr hpoint, ← map_eq_flatMap]
    refine ext_getElem (by rw [length_map, length_range, hlen]) fun i hi hi' => ?_
    rw [getElem_map, getElem_range, getD_eq_getElem?_getD, getElem?_eq_getElem hi', getD_some]
  rw [hsame]

/-- `flameout` returns, the positions in the key are a permutation of those of the text, each has
its letter, and `reassembly` yields the text. -/
def Reversible (t : Clocks) (stack : ℤ → Char) (text : Text) (f : FractalMemory) : Prop :=
  ∃ (fuel : ℕ) (f' : FractalMemory) (positions : List ℕ),
    flameout fuel t stack text.length text f = .ok f' ∧
    (∀ i p : ℕ, positions[i]? = some p → f'.wordLetterMovements i = keyPiece p) ∧
    positions.Perm (List.range text.length) ∧
    (∀ i p : ℕ, positions[i]? = some p → f'.obfuscatedCombinedString[p]? = text[i]?) ∧
    ∀ stack g, ∃ g', reassembly stack f'.obfuscatedCombinedString f'.singleLayerKey g = some g' ∧
      g'.plainTextCombinedString = g.plainTextCombinedString ++ text

/-- The length does not lie where a multiple of the factor is halved to it. -/
def MissesLength (factor : ℤ) (n : ℕ) : Prop :=
  ∀ i < n, ∀ j : ℕ, ¬((n * 2 ^ j : ℤ) ≤ factor * moveCount n i ∧
    factor * moveCount n i < (n + 1) * 2 ^ j)

theorem missesLength_iff (hn : 0 < n) :
    MissesLength factor n ↔ ∀ i < n, triedFirst factor n i ≠ n := by
  refine forall₂_congr fun i _ => ?_
  rw [triedFirst, Ne, dropMove_eq_iff hn, not_exists]

theorem triedFirst_nonneg (h : 0 ≤ factor) (n i : ℕ) : 0 ≤ triedFirst factor n i :=
  dropMove_nonneg (mul_nonneg h (Int.natCast_nonneg _))

/-- A position that is the length is logged as any other. -/
theorem missesLength_of_reversible (hne : text ≠ []) (hlen : text.length ≤ tableSize)
    (h : Reversible t stack text f) : (text.length : ℤ) ≤ (t.seed_1 + t.seed_2).toInt ∧
      ∀ fuel seed_tmp, seedTmp fuel t text.length = .ok seed_tmp →
        MissesLength (moveFactor seed_tmp text.length) text.length := by
  obtain ⟨fuel, f', positions, hrun, hmoves, hperm, -, -⟩ := h
  have hn := length_pos_iff.2 hne
  have hn' : text.length < 2 ^ 40 := lt_of_le_of_lt hlen (by decide)
  obtain ⟨seed, m, hseed, hinv, hall, rfl⟩ := of_flameout hne hlen hrun
  have htimes : (text.length : ℤ) ≤ (t.seed_1 + t.seed_2).toInt := by
    by_contra hlt
    rw [seedTmp_stuck hn hn' (not_le.1 hlt)] at hseed
    cases hseed
  refine ⟨htimes, fun k seed' hseed' => ?_⟩
  obtain ⟨k0, q, hends, hq, hq'⟩ := seedTmp_ends hn hn' htimes
  have hsame : ∀ k s, seedTmp k t text.length = .ok s → s = .fin q := fun k s hs =>
    ok.inj ((seedTmp_mono (le_max_left k k0) hs).symm.trans (hends _ (le_max_right k k0)))
  obtain rfl := hsame _ _ hseed
  obtain rfl := hsame _ _ hseed'
  rw [missesLength_iff hn]
  intro i hi heq
  -- the position of letter `i` is in the log, and so in the key
  obtain ⟨j, hj⟩ := mem_iff_getElem?.1 (hinv.attempted i (hall ▸ hi))
  have hjlt : j < positions.length := by
    rw [hperm.length_eq, length_range, ← hall, hinv.seedLoop]
    exact (List.getElem?_eq_some_iff.1 hj).1
  have hkey := (hinv.kept.2 j _ hj).2
  rw [heq] at hkey
  have hkey' := hmoves j _ (getElem?_eq_getElem hjlt)
  have hpos : text.length = positions[j] :=
    toText_inj (append_cancel_right (hkey.symm.trans hkey'))
  have hin := mem_range.1 (hperm.mem_iff.1 (getElem_mem hjlt))
  omega

/-- Without such a position the letters stay in the text, and come back. -/
theorem reversible_of_missesLength (hne : text ≠ []) (hlen : text.length ≤ tableSize)
    (hnul : '\x00' ∉ text) (htimes : (text.length : ℤ) ≤ (t.seed_1 + t.seed_2).toInt)
    (hmiss : ∀ fuel seed_tmp, seedTmp fuel t text.length = .ok seed_tmp →
      MissesLength (moveFactor seed_tmp text.length) text.length) :
    Reversible t stack text f := by
  have hn := length_pos_iff.2 hne
  have hn' : text.length < 2 ^ 40 := lt_of_le_of_lt hlen (by decide)
  obtain ⟨fuel, f', hrun⟩ := flameout_ends hne hlen htimes stack f
  obtain ⟨seed, m, hseed, hinv, hall, rfl⟩ := of_flameout hne hlen hrun
  obtain ⟨k0, q, hends, hq, hq'⟩ := seedTmp_ends hn hn' htimes
  obtain rfl : seed = .fin q :=
    ok.inj ((seedTmp_mono (le_max_left fuel k0) hseed).symm.trans (hends _ (le_max_right fuel k0)))
  have hfactor := moveFactor_nonneg hn hn' hq hq'
  have hmiss' := (missesLength_iff hn).1 (hmiss _ _ hseed)
  have hrange : ∀ p ∈ m.loggedUsedPositions, 0 ≤ p ∧ p < text.length := by
    intro p hp
    rcases hinv.range p hp with h | ⟨i, hi, rfl⟩
    · exact h
    · have hneq := hmiss' i hi
      exact ⟨triedFirst_nonneg hfactor _ _, lt_of_le_of_ne (dropMove_le _ _) hneq⟩
  obtain ⟨positions, hpositions⟩ : ∃ positions : List ℕ,
      positions.map Nat.cast = m.loggedUsedPositions := by
    refine ⟨m.loggedUsedPositions.map Int.toNat, ?_⟩
    rw [map_map]
    exact (map_congr_left fun p hp => Int.toNat_of_nonneg (hrange p hp).1).trans (map_id _)
  have hlength : positions.length = text.length := by
    rw [← length_map (Nat.cast : ℕ → ℤ), hpositions, ← hinv.seedLoop, hall]
  have hlog : ∀ i p : ℕ, positions[i]? = some p → m.loggedUsedPositions[i]? = some (p : ℤ) := by
    intro i p hp
    rw [← hpositions, getElem?_map, hp]
    rfl
  have hsub : positions ⊆ List.range text.length := by
    intro p hp
    have hmem := hrange p (hpositions ▸ mem_map_of_mem hp)
    exact mem_range.2 (by omega)
  have hnodup : positions.Nodup := List.Nodup.of_map Nat.cast (hpositions ▸ hinv.nodup)
  have hperm : positions.Perm (List.range text.length) :=
    (subperm_of_subset hnodup hsub).perm_of_length_le
      (by rw [hlength, length_range])
  have hcell : ∀ i p : ℕ, positions[i]? = some p → ∃ c,
      (finished text.length m.moved).obfuscatedCombinedString[p]? = some c ∧ text[i]? = some c := by
    intro i p hp
    have hplt := mem_range.1 (hsub (mem_of_getElem? hp))
    have hilt : i < text.length := hlength ▸ (List.getElem?_eq_some_iff.1 hp).1
    have hout := (hinv.kept.2 i p (hlog i p hp)).1
    refine ⟨text[i], ?_, getElem?_eq_getElem hilt⟩
    rw [strcpy_of_getElem? hnul (getElem?_eq_getElem hilt)] at hout
    rw [← hout, finished, getElem?_map, getElem?_range hplt]
    rfl
  have hkey : (finished text.length m.moved).singleLayerKey = positions.flatMap keyPiece := by
    have hpoint : ∀ i ∈ List.range text.length,
        m.moved.memory.wordLetterMovements i = keyPiece (positions.getD i 0) := by
      intro i hi
      have hilt : i < positions.length := hlength ▸ mem_range.1 hi
      rw [(hinv.kept.2 i _ (hlog i _ (getElem?_eq_getElem hilt))).2,
        getD_eq_getElem?_getD, getElem?_eq_getElem hilt]
      rfl
    have hmap : (List.range text.length).map (positions.getD · 0) = positions := by
      refine ext_getElem (by simp [hlength]) fun i hi hi' => ?_
      rw [getElem_map, getElem_range, getD_eq_getElem?_getD, getElem?_eq_getElem hi', getD_some]
    calc (finished text.length m.moved).singleLayerKey
        = (List.range text.length).flatMap fun i => keyPiece (positions.getD i 0) :=
          flatMap_congr hpoint
      _ = ((List.range text.length).map (positions.getD · 0)).flatMap keyPiece :=
          (flatMap_map _ _ _).symm
      _ = positions.flatMap keyPiece := by rw [hmap]
  have hteeth : '\x00' ∉ (finished text.length m.moved).obfuscatedCombinedString := by
    intro hmem
    obtain ⟨p, hp, hout⟩ := mem_map.1 hmem
    obtain ⟨i, hi⟩ := mem_iff_getElem?.1 (hperm.mem_iff.2 hp)
    obtain ⟨c, hc, htext⟩ := hcell i p hi
    rw [finished, getElem?_map, getElem?_range (mem_range.1 hp)] at hc
    rw [Option.map_some, hout] at hc
    exact hnul (some.inj hc ▸ mem_of_getElem? htext)
  refine ⟨fuel, _, positions, hrun, fun i p hp => (hinv.kept.2 i p (hlog i p hp)).2, hperm,
    fun i p hp => ?_, fun stack g => ?_⟩
  · obtain ⟨c, hc, htext⟩ := hcell i p hp
    rw [hc, htext]
  · rw [hkey]
    exact reassembly_eq hlength hlen hteeth
      (fun p hp => lt_of_lt_of_le (mem_range.1 (hsub hp)) (hlen.trans (by decide)))
      hcell stack g

/-- **The letters of a text come back exactly if the seed loops end and no position is the
length.** -/
theorem flameout_reversible_iff {text : Text} (hne : text ≠ []) (hlen : text.length ≤ 5000)
    (hnul : '\x00' ∉ text) (t : Clocks) (stack : ℤ → Char) (f : FractalMemory) :
    Reversible t stack text f ↔ (text.length : ℤ) ≤ (t.seed_1 + t.seed_2).toInt ∧
      ∀ fuel seed_tmp, seedTmp fuel t text.length = .ok seed_tmp →
        MissesLength (moveFactor seed_tmp text.length) text.length :=
  ⟨missesLength_of_reversible hne hlen, fun h => reversible_of_missesLength hne hlen hnul h.1 h.2⟩

/-- The memory at the start of the program. -/
def FractalMemory.start : FractalMemory where
  obfuscatedString := []
  obfuscatedCombinedString := []
  plainTextCombinedString := []
  plainTextString := []
  singleLayerKey := []
  secondLayerKey := []
  fTokenDecodeSuccess := false
  wordLetterMovements := fun _ => []
  wordCharacterMovements := fun _ => []
  obCache := fun _ => []

/-- Two letters are always moved within the text. -/
theorem flameout_reversible_pair :
    Reversible ⟨1700000100, 1700000000⟩ (fun _ => ' ') ['D', 'C'] .start := by
  refine (flameout_reversible_iff (by decide) (by decide) (by decide) _ _ _).2
    ⟨by decide, fun fuel seed_tmp _ i hi j => ?_⟩
  have hcount : moveCount 2 i = 0 := by
    rcases le_one_iff_eq_zero_or_eq_one.1 (le_of_lt_succ hi) with rfl | rfl <;> rfl
  change ¬((2 * 2 ^ j : ℤ) ≤ _ * (moveCount 2 i : ℤ) ∧ _)
  rw [hcount, cast_zero, mul_zero]
  exact fun h => absurd h.1 (not_le.2 (by positivity))

/-- The code of the contract `Hi`. -/
def codeOfHi : Text := "143441144214D133141424241DC".toList

/-- The code of `Hi` has 27 letters, and 27 is one of the positions. -/
theorem flameout_not_reversible : ¬∀ (t : Clocks) (stack : ℤ → Char) (text : Text)
    (f : FractalMemory), text ≠ [] → text.length ≤ 5000 → '\x00' ∉ text →
      Reversible t stack text f := by
  intro h
  have hlen : codeOfHi.length = 27 := by decide
  have hrev := h ⟨1700000100, 1700000000⟩ (fun _ => ' ') codeOfHi .start
    (by decide) (hlen ▸ by decide) (by decide)
  obtain ⟨-, hmiss⟩ := missesLength_of_reversible (by decide) (hlen ▸ by decide) hrev
  rw [hlen] at hmiss
  have hfactor : (seedTmp 20 ⟨1700000100, 1700000000⟩ 27).toOption.map (moveFactor · 27) =
      some 147 := by
    decide +kernel
  cases hseed : seedTmp 20 ⟨1700000100, 1700000000⟩ 27 with
  | error e =>
    rw [hseed] at hfactor
    cases hfactor
  | ok seed_tmp =>
    rw [hseed] at hfactor
    -- the first letter is tried at three times 147, which is halved four times
    have hvalue : moveFactor seed_tmp 27 = 147 := some.inj hfactor
    have h0 := hmiss 20 seed_tmp hseed 0 (by decide) 4
    rw [hvalue] at h0
    exact h0 (by decide)

end Espers
