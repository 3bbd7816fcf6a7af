import Espers.Fractal.Obfuscation
import Mathlib.Data.List.Nodup

/-!
# Contract data and back

* `code_spec` : the codes of the letters and digits are digits, and no two are the same.
* `obfuscation_roundTrip` : **a stored contract is decoded to its words**.
-/

namespace Espers

open Tokens List

variable {c : Char} {w word : Text} {ws : List Text}

/-! ### The tables -/

/-- The place of a letter or digit in `Character_String`. -/
def tablePosition (c : Char) : ℕ :=
  if c.isDigit then c.toNat + 4
  else if c.isUpper then 2 * (c.toNat - 65)
  else 2 * (c.toNat - 97) + 1

/-- The entries of `Letter_Unmatch_String` as numbers. -/
def letterNumbers : List ℕ := [
  1441, 1341, 1443, 1343, 1442, 1342, 1414, 1314, 1411, 1311,
  1413, 1313, 1412, 1312, 1434, 1334, 1431, 1331, 1433, 1333,
  1432, 1332, 1424, 1324, 1421, 1321, 1423, 1323, 1422, 1322,
  1144, 1244, 1141, 1241, 1143, 1243, 1142, 1242, 1114, 1214,
  1111, 1211, 1113, 1213, 1112, 1212, 1134, 1234, 1131, 1231,
  1133, 1233, 4244, 4241, 4243, 4242, 4214, 4211, 4213, 4212,
  4234, 4231]

theorem tables_checked : (∀ i < 62, (characterAt i).any (fun name => name.length = 1 &&
      name.all fun c => c.isAlphanum && tablePosition c = i) = true) ∧
    (∀ n < 128, (Char.ofNat n).isAlphanum = true → tablePosition (Char.ofNat n) < 62 ∧
      characterAt (tablePosition (Char.ofNat n)) = some [Char.ofNat n]) ∧
    (∀ i < 62, (codeAt i).any (fun code => code.length = 12 && code.all Char.isDigit) = true) ∧
    letterUnmatchString.map (fun s => (s.toList.length, Nat.ofDigitChars 10 s.toList 0)) =
      letterNumbers.map ((4, ·)) ∧
    letterNumbers.Nodup := by
  decide +kernel

variable {i : ℕ}

theorem exists_characterAt (hi : i < 62) :
    ∃ c, characterAt i = some [c] ∧ c.isAlphanum = true ∧ tablePosition c = i := by
  obtain ⟨name, hname, hspec⟩ := (Option.any_eq_true _ _).1 (tables_checked.1 i hi)
  rw [Bool.and_eq_true, decide_eq_true_eq] at hspec
  obtain ⟨c, rfl⟩ := length_eq_one_iff.1 hspec.1
  have hc := hspec.2
  rw [all_cons, all_nil, Bool.and_true, Bool.and_eq_true, decide_eq_true_eq] at hc
  exact ⟨c, hname, hc⟩

theorem exists_codeAt (hi : i < 62) :
    ∃ code, codeAt i = some code ∧ code.length = 12 ∧ ∀ d ∈ code, d.isDigit = true := by
  obtain ⟨code, hcode, hspec⟩ := (Option.any_eq_true _ _).1 (tables_checked.2.2.1 i hi)
  rw [Bool.and_eq_true, decide_eq_true_eq, all_eq_true] at hspec
  exact ⟨code, hcode, hspec⟩

theorem lt_of_characterAt {name : Text} (h : characterAt i = some name) : i < 62 := by
  obtain ⟨entry, hentry, -⟩ := Option.map_eq_some_iff.1 h
  exact (List.getElem?_eq_some_iff.1 hentry).1

theorem of_characterAt {name : Text} (h : characterAt i = some name) :
    ∃ d, name = [d] ∧ d.isAlphanum = true := by
  obtain ⟨d, hd, halpha, -⟩ := exists_characterAt (lt_of_characterAt h)
  exact ⟨d, Option.some.inj (h.symm.trans hd), halpha⟩

theorem exists_characterAt_ofNat (n : ℕ) (hn : n < 128)
    (h : (Char.ofNat n).isAlphanum = true) : ∃ i < 62, characterAt i = some [Char.ofNat n] :=
  ⟨_, tables_checked.2.1 n hn h⟩

theorem nodup_characters : ((List.range 62).map characterAt).Nodup := by
  refine Nodup.map_on (fun i hi j hj heq => ?_) nodup_range
  obtain ⟨c, hc, -, hcpos⟩ := exists_characterAt (mem_range.1 hi)
  obtain ⟨d, hd, -, hdpos⟩ := exists_characterAt (mem_range.1 hj)
  rw [hc, hd] at heq
  obtain rfl : c = d := (cons.inj (Option.some.inj heq)).1
  rw [← hcpos, hdpos]

theorem letterNumbers_of_codeAt {code : Text} (h : codeAt i = some code) :
    letterNumbers[i]? = some (Nat.ofDigitChars 10 (code.take 4) 0) := by
  obtain ⟨letter, hletter, h⟩ := Option.bind_eq_some_iff.1 h
  obtain ⟨tail, -, h⟩ := Option.bind_eq_some_iff.1 h
  have hmap := congrArg (fun l => l[i]?) tables_checked.2.2.2.1
  simp only [getElem?_map, hletter] at hmap
  obtain ⟨m, hm, hpair⟩ := Option.map_eq_some_iff.1 hmap.symm
  obtain ⟨hlen, hnum⟩ := Prod.mk.inj hpair
  rw [hm, ← Option.some.inj h, take_left' hlen.symm, hnum]

theorem nodup_codes : ((List.range 62).map codeAt).Nodup := by
  refine Nodup.map_on (fun i hi j hj heq => ?_) nodup_range
  obtain ⟨code, hcode, -⟩ := exists_codeAt (mem_range.1 hi)
  have hi' := letterNumbers_of_codeAt hcode
  have hj' := letterNumbers_of_codeAt (heq ▸ hcode)
  exact (getElem?_inj (mem_range.1 hi) tables_checked.2.2.2.2).1 (hi'.trans hj'.symm)

theorem detect_eq {t : ℕ → Option Text} (ht : ((List.range 62).map t).Nodup) (hi : i < 62) :
    detect (fun j => t j = t i) = i := by
  have hfind : (List.range 62).find? (fun j => decide (t j = t i)) = some i := by
    rw [find?_range_eq_some]
    refine ⟨by simp, mem_range.mpr hi, fun j hj => ?_⟩
    have hne : t j ≠ t i := by
      intro heq
      have := inj_on_of_nodup_map ht (mem_range.mpr (hj.trans hi))
        (mem_range.mpr hi) heq
      omega
    simp [hne]
  rw [detect, hfind]
  rfl

/-- The code of a letter. -/
def code (c : Char) : Text := (codeAt (detect fun i => characterAt i = some [c])).getD []

/-- A letter or digit has a place in the tables, where the loops find it and its code. -/
theorem code_spec (hc : c.isAlphanum = true) : (∃ i,
      detect (fun j => characterAt j = some [c]) = i ∧ characterAt i = some [c] ∧
      codeAt i = some (code c) ∧ detect (fun j => codeAt j = some (code c)) = i) ∧
    code c ≠ [] ∧ ∀ d ∈ code c, d.isDigit = true := by
  have hlt : c.toNat < 128 := by
    change ((decide (c.val ≥ 65 ∧ c.val ≤ 90) || decide (c.val ≥ 97) && decide (c.val ≤ 122)) ||
      decide (c.val ≥ 48) && decide (c.val ≤ 57)) = true at hc
    change c.val.toNat < 128
    simp only [Bool.or_eq_true, Bool.and_eq_true, decide_eq_true_eq,
      UInt32.le_iff_toNat_le, UInt32.reduceToNat] at hc
    omega
  obtain ⟨i, hi, hchar⟩ := exists_characterAt_ofNat c.toNat hlt (by rwa [Char.ofNat_toNat])
  rw [Char.ofNat_toNat] at hchar
  have hdetect : detect (fun j => characterAt j = some [c]) = i := by
    rw [← hchar]
    exact detect_eq nodup_characters hi
  obtain ⟨cd, hcode, hlen, hdigits⟩ := exists_codeAt hi
  have heq : code c = cd := by
    rw [code, hdetect, hcode]
    rfl
  rw [heq]
  refine ⟨⟨i, hdetect, hchar, hcode, ?_⟩, ne_nil_of_length_pos (by omega), hdigits⟩
  rw [← hcode]
  exact detect_eq nodup_codes hi

/-! ### Words -/

/-- The codes of the letters of a word. -/
def obfuscated (word : Text) : Text := word.flatMap fun c => code c ++ ['D']

theorem obfuscated_cons (c : Char) (word : Text) :
    obfuscated (c :: word) = code c ++ 'D' :: obfuscated word := by
  rw [obfuscated, flatMap_cons, append_assoc]
  rfl

/-- A word of letters and digits. -/
def Plain (word : Text) : Prop := ∀ c ∈ word, c.isAlphanum = true

theorem Plain.tail (h : Plain (c :: word)) : Plain word := fun d hd => h d (.tail _ hd)

theorem Plain.obfuscated (h : Plain word) : ∀ d ∈ obfuscated word, d.isDigit = true ∨ d = 'D' := by
  intro d hd
  rw [Espers.obfuscated, mem_flatMap] at hd
  obtain ⟨c, hc, hd⟩ := hd
  rcases mem_append.mp hd with hd | hd
  · exact .inl ((code_spec (h c hc)).2.2 d hd)
  · exact .inr (mem_singleton.mp hd)

theorem notMem_of_isDigit {s : Text} {d : Char} (h : ∀ c ∈ s, c.isDigit = true)
    (hd : d.isDigit = false) : d ∉ s := by
  intro hmem
  rw [h d hmem] at hd
  cases hd

theorem Plain.notMem (h : Plain word) {d : Char} (hd : d.isDigit = false) (hne : d ≠ 'D') :
    d ∉ Espers.obfuscated word := by
  intro hmem
  rcases h.obfuscated d hmem with hdigit | heq
  · rw [hd] at hdigit
    cases hdigit
  · exact hne heq

theorem obfuscateLetters_eq (h : Plain word) (s : Text) :
    obfuscateLetters s word = some (s ++ obfuscated word) := by
  induction word generalizing s with
  | nil => exact congrArg some (append_nil s).symm
  | cons c word ih =>
    obtain ⟨⟨i, hdetect, -, hcode, -⟩, -⟩ := code_spec (h c (.head _))
    rw [obfuscateLetters, hdetect, hcode, characterAt_buffers.2.2.2]
    refine (ih h.tail _).trans ?_
    rw [obfuscated_cons, append_assoc, append_assoc]
    rfl

theorem obfuscateWords_some (L : FractalLayers) (left : ℕ) (rest : Text) (f : FractalData)
    (hf : f.obfuscatedString = []) (h : Plain w) :
    ∃ f', obfuscateWords L false left (some (w, rest)) f = (match left with
        | 0 => some f'
        | left + 1 => obfuscateWords L false left (next ' ' rest) f') ∧
      f'.obfuscatedString = [] ∧
      f'.obfuscatedCombinedString = f.obfuscatedCombinedString ++ (obfuscated w ++ ['C']) := by
  have hbuffer := characterAt_buffers.2.2.1
  cases left <;>
    (rw [obfuscateWords, obfuscateLetters_eq h, hf, hbuffer]
     exact ⟨_, rfl, rfl, rfl⟩)

/-- A text of words of letters and digits. -/
def PlainText (s : Text) : Prop := ∀ c ∈ s, c = ' ' ∨ c.isAlphanum = true

theorem PlainText.next {s rest : Text} (h : PlainText s) (hnext : next ' ' s = some (w, rest)) :
    Plain w ∧ PlainText rest := by
  obtain ⟨-, -, hd, hw, hrest⟩ := of_next_eq_some hnext
  exact ⟨fun c hc => (h c (hw hc)).resolve_left fun heq => hd (heq ▸ hc), fun c hc =>
    h c (hrest hc)⟩

/-- The loop over the words appends each with a `C` behind it. -/
theorem obfuscateWords_eq (L : FractalLayers) (left : ℕ) (s : Text) (f : FractalData)
    (hf : f.obfuscatedString = []) (hs : PlainText s) (hlen : (words ' ' s).length ≤ left + 1) :
    ∃ f', obfuscateWords L false left (next ' ' s) f = some f' ∧
      f'.obfuscatedCombinedString = f.obfuscatedCombinedString ++
        (words ' ' s).flatMap fun word => obfuscated word ++ ['C'] := by
  induction left using Nat.strong_induction_on generalizing s f with
  | _ left ih =>
    cases h : next ' ' s with
    | none =>
      rw [words_of_next_eq_none h]
      exact ⟨f, by cases left <;> rfl, (append_nil _).symm⟩
    | some p =>
      obtain ⟨hwords, -⟩ := of_next_eq_some h
      rw [hwords, length_cons] at hlen
      obtain ⟨hplain, hrest⟩ := hs.next h
      obtain ⟨f1, hrun, hf1, hcombined⟩ := obfuscateWords_some L left p.2 f hf hplain
      cases left with
      | zero =>
        -- it was the last word
        have hlast : words ' ' p.2 = [] := length_eq_zero_iff.mp (by omega)
        refine ⟨f1, hrun, ?_⟩
        rw [hcombined, hwords, hlast, flatMap_cons, flatMap_nil, append_nil]
      | succ left =>
        obtain ⟨f', hrun', hcombined'⟩ := ih left left.lt_succ_self p.2 f1 hf1 hrest (by omega)
        refine ⟨f', hrun.trans hrun', ?_⟩
        rw [hcombined', hcombined, hwords, flatMap_cons, append_assoc]

/-! ### Decoding -/

/-- The text is cut into the pieces that were put together. -/
theorem obCache_eq (left : ℕ) (pieces : List Text) (h : ∀ p ∈ pieces, 'C' ∉ p)
    (hlen : pieces.length ≤ left + 1) : obCache left (pieces.flatMap (· ++ ['C'])) = pieces := by
  induction pieces generalizing left with
  | nil =>
    cases left <;> rfl
  | cons p pieces ih =>
    have htext : (p :: pieces).flatMap (· ++ ['C']) = p ++ 'C' :: pieces.flatMap (· ++ ['C']) := by
      rw [flatMap_cons, append_assoc]
      rfl
    have hp := h p (.head _)
    rw [length_cons] at hlen
    cases left with
    | zero =>
      obtain rfl : pieces = [] := length_eq_zero_iff.mp (by omega)
      rw [htext, obCache, if_pos (by simp), takeWhile_append hp]
    | succ left =>
      rw [htext, obCache, if_pos (by simp), takeWhile_append hp, dropWhile_append hp]
      exact congrArg _ (ih left (fun q hq => h q (.tail _ hq)) (by omega))

theorem next_obfuscated (h : Plain word) : ∃ p, next 'D' (obfuscated word ++ ['0']) = some p := by
  cases word with
  | nil => exact ⟨(['0'], []), by decide⟩
  | cons c word =>
    obtain ⟨-, hne, hdigit⟩ := code_spec (h c (.head _))
    rw [obfuscated_cons, append_assoc, cons_append,
      next_append_cons hne (notMem_of_isDigit hdigit rfl)]
    exact ⟨_, rfl⟩

theorem matchLetters_eq (h : Plain word) {ltrcount rest : Text} (s : Text)
    (hnext : next 'D' (obfuscated word ++ ['0']) = some (ltrcount, rest)) :
    matchLetters word.length ltrcount rest s = some (s ++ word) := by
  induction word generalizing ltrcount rest s with
  | nil => exact congrArg some (append_nil s).symm
  | cons c word ih =>
    obtain ⟨⟨i, -, hchar, -, hdetect⟩, hne, hdigit⟩ := code_spec (h c (.head _))
    rw [obfuscated_cons, append_assoc, cons_append,
      next_append_cons hne (notMem_of_isDigit hdigit rfl)] at hnext
    cases hnext
    obtain ⟨⟨ltrcount, rest⟩, hnext⟩ := next_obfuscated h.tail
    rw [length_cons, matchLetters, hdetect, hchar, hnext]
    refine (ih h.tail (s ++ [c]) hnext).trans ?_
    rw [append_assoc]
    rfl

theorem count_obfuscated (h : Plain word) : (obfuscated word).count 'D' = word.length := by
  induction word with
  | nil => rfl
  | cons c word ih =>
    have hcode : (code c).count 'D' = 0 :=
      count_eq_zero.mpr (notMem_of_isDigit (code_spec (h c (.head _))).2.2 rfl)
    rw [obfuscated_cons, count_append, count_cons_self, hcode, ih h.tail, length_cons]
    omega

/-- One turn of the loop over the words. -/
theorem matchWords_cons (left : ℕ) (obCache : List Text) (f : FractalData)
    (hf : f.plainTextString = []) (h : Plain w) :
    ∃ f', matchWords left (obfuscated w :: obCache) f = (match left with
        | 0 => some f'
        | left + 1 => matchWords left obCache f') ∧
      f'.plainTextString = [] ∧
      f'.plainTextCombinedString = f.plainTextCombinedString ++ (w ++ [' ']) := by
  have hzero : cStr (obfuscated w ++ ['0']) = obfuscated w ++ ['0'] := by
    refine takeWhile_self fun hmem => ?_
    rcases mem_append.mp hmem with hw | hpad
    · exact h.notMem rfl (by decide) hw
    · cases mem_singleton.mp hpad
  have htake : (obfuscated w ++ ['0']).take ((obfuscated w ++ ['0']).length - 1) =
    obfuscated w := by
    rw [length_append, length_singleton, Nat.add_sub_cancel, take_left]
  obtain ⟨⟨ltrcount, rest⟩, hnext⟩ := next_obfuscated h
  have hletters : matchLetters w.length ltrcount rest [] = some w := matchLetters_eq h [] hnext
  cases left <;>
    (rw [matchWords, hzero, hnext, htake, count_obfuscated h, hf]
     simp only [Option.bind_eq_bind, Option.bind_some, hletters]
     exact ⟨_, rfl, rfl, rfl⟩)

/-- The loop over the words finds each, and puts a space behind it. -/
theorem matchWords_eq (left : ℕ) (ws : List Text) (f : FractalData) (hf : f.plainTextString = [])
    (hws : ∀ word ∈ ws, Plain word) (hlen : ws.length ≤ left + 1) :
    ∃ f', matchWords left (ws.map obfuscated) f = some f' ∧
      f'.plainTextCombinedString = f.plainTextCombinedString ++ ws.flatMap (· ++ [' ']) := by
  induction ws generalizing left f with
  | nil =>
    refine ⟨f, ?_, (append_nil _).symm⟩
    cases left <;> rfl
  | cons word ws ih =>
    obtain ⟨f1, hrun, hf1, hcombined⟩ :=
      matchWords_cons left (ws.map obfuscated) f hf (hws word (.head _))
    rw [length_cons] at hlen
    cases left with
    | zero =>
      obtain rfl : ws = [] := length_eq_zero_iff.mp (by omega)
      refine ⟨f1, hrun, ?_⟩
      rw [hcombined, flatMap_cons, flatMap_nil, append_nil]
    | succ left =>
      obtain ⟨f', hrun', hcombined'⟩ := ih left f1 hf1 (fun q hq => hws q (.tail _ hq)) (by omega)
      refine ⟨f', hrun.trans hrun', ?_⟩
      rw [hcombined', hcombined, flatMap_cons, append_assoc]

/-! ### The file -/

theorem readLines_newline (s : Text) : readLines ('\n' :: s) = readLines s := by
  rfl

theorem readLines_line {line : Text} (hline : '\n' ∉ line) (hcomment : line.head? ≠ some '#')
    (s : Text) : readLines (line ++ '\n' :: s) = line ++ readLines s := by
  rw [readLines, splitOn_append_cons_self_of_not_mem hline, flatMap_cons]
  by_cases hne : line = []
  · rw [if_pos (.inl hne), hne]
    rfl
  · rw [if_neg fun h => h.elim hne hcomment]
    rfl

/-- What was stored is read up to the `|`, whatever the alias is. -/
theorem readLines_writeContractData (existed : Bool) {s : Text} (contractAlias : Text)
    (hs : ∀ d ∈ s, d.isDigit = true ∨ d = 'D' ∨ d = 'C') :
    (readLines (writeContractData existed s contractAlias)).takeWhile (· ≠ '|') = s := by
  have hout : ∀ d : Char, d.isDigit = false → d ≠ 'D' → d ≠ 'C' → d ∉ s := by
    intro d hd hD hC hmem
    rcases hs d hmem with hdigit | heq | heq
    · rw [hd] at hdigit
      cases hdigit
    · exact hD heq
    · exact hC heq
  have hzero : cStr s = s := takeWhile_self (hout _ rfl (by decide) (by decide))
  -- the first line ends in the alias
  obtain ⟨a, b, hab, ha⟩ := eq_append_cons_of_mem
    (show '\n' ∈ cStr contractAlias ++ ['\n'] from mem_append_right _ (.head _))
  have hfile : ['|'] ++ cStr contractAlias ++ ['\n'] = '|' :: a ++ '\n' :: b := by
    rw [append_assoc, hab]
    rfl
  have hline : '\n' ∉ s ++ '|' :: a := by
    intro hmem
    rcases mem_append.mp hmem with hmem | hmem
    · exact hout _ rfl (by decide) (by decide) hmem
    · rcases mem_cons.mp hmem with heq | hmem
      · exact absurd heq (by decide)
      · exact ha hmem
  have hcomment : (s ++ '|' :: a).head? ≠ some '#' := by
    cases s with
    | nil => simp
    | cons d s =>
      intro heq
      cases heq
      exact hout '#' rfl (by decide) (by decide) (.head _)
  have hread : readLines (s ++ ['|'] ++ cStr contractAlias ++ ['\n']) = s ++
    '|' :: (a ++ readLines b) := by
    rw [append_assoc, append_assoc, ← append_assoc ['|'], hfile, ← append_assoc,
      readLines_line hline hcomment, append_assoc]
    rfl
  have hstored : readLines (writeContractData existed s contractAlias) =
      readLines (s ++ ['|'] ++ cStr contractAlias ++ ['\n']) := by
    unfold writeContractData
    rw [hzero]
    cases existed with
    | false => rfl
    | true => exact readLines_newline _
  rw [hstored, hread, takeWhile_append (hout _ rfl (by decide) (by decide))]

/-! ### The round trip -/

theorem PlainText.words {s : Text} (h : PlainText s) : ∀ word ∈ words ' ' s, Plain word := by
  intro word hword c hc
  obtain ⟨-, hd, hsub⟩ := of_mem_words hword
  exact (h c (hsub hc)).resolve_left fun heq => hd (heq ▸ hc)

/-- The codes of a text are digits and the two buffers. -/
theorem PlainText.codes {s : Text} (h : PlainText s) {d : Char}
    (hd : d ∈ (Tokens.words ' ' s).flatMap fun word => obfuscated word ++ ['C']) :
    d.isDigit = true ∨ d = 'D' ∨ d = 'C' := by
  obtain ⟨word, hword, hd⟩ := mem_flatMap.mp hd
  rcases mem_append.mp hd with hd | hd
  · exact ((h.words word hword).obfuscated d hd).imp_right .inl
  · exact .inr (.inr (mem_singleton.mp hd))

/-- What is obfuscated has no NUL, at which the functions of C would end it. -/
theorem obfuscateWords_notMem (L : FractalLayers) {left : ℕ} {s : Text} {f f' : FractalData}
    (hf : f.obfuscatedString = []) (hempty : f.obfuscatedCombinedString = []) (hs : PlainText s)
    (hlen : (words ' ' s).length ≤ left + 1)
    (h : obfuscateWords L false left (next ' ' s) f = some f') :
    '\x00' ∉ f'.obfuscatedCombinedString := by
  obtain ⟨f1, hrun, hcombined⟩ := obfuscateWords_eq L left s f hf hs hlen
  obtain rfl := Option.some.inj (hrun.symm.trans h)
  rw [hcombined, hempty, nil_append]
  intro hmem
  rcases hs.codes hmem with hd | hd | hd <;> exact absurd hd (by decide)

/-- **A stored contract is decoded to its words**, in the same order and each with a space behind
it: whatever is in the texts that the functions share, whatever the alias, and whether or not the
file was there before. -/
theorem obfuscation_roundTrip (L : FractalLayers) (existed : Bool)
    (contractInput contractAlias : Text) (f : FractalData)
    (hinput : ∀ c ∈ contractInput, c = ' ' ∨ c.isAlphanum = true)
    (hwords : (words ' ' contractInput).length ≤ 5000) :
    ∃ f' file, characterObfuscation L existed contractInput contractAlias 3 false f =
    some (f', file) ∧ ∀ g, ∃ g', gateKeeper L (some file) 3 g = some g' ∧
        g'.plainTextCombinedString = (words ' ' contractInput).flatMap (· ++ [' ']) := by
  have hplain : ∀ word ∈ words ' ' contractInput, Plain word := PlainText.words hinput
  have hinput' : cStr contractInput = contractInput := by
    refine takeWhile_self fun hmem => ?_
    rcases hinput _ hmem with heq | hletter
    · exact absurd heq (by decide)
    · exact absurd hletter (by decide)
  obtain ⟨f', hrun, hcombined⟩ := obfuscateWords_eq L 4999 contractInput
    { f with secondLayerKey := [], singleLayerKey := [], obfuscatedCombinedString := [],
             obfuscatedString := [] } rfl hinput hwords
  rw [nil_append] at hcombined
  refine ⟨f', writeContractData existed f'.obfuscatedCombinedString contractAlias, ?_, fun g => ?_⟩
  · rw [characterObfuscation, hinput', hrun]
    rfl
  -- what is read from the file are the codes of the words
  have hstored :=
    readLines_writeContractData existed (s := f'.obfuscatedCombinedString) contractAlias (by
      intro d hd
      rw [hcombined] at hd
      exact PlainText.codes hinput hd)
  have hcache : obCache 4999 f'.obfuscatedCombinedString =
      (words ' ' contractInput).map obfuscated := by
    have hpieces := obCache_eq 4999 ((words ' ' contractInput).map obfuscated)
      (by
        intro p hp
        obtain ⟨word, hword, rfl⟩ := mem_map.mp hp
        exact (hplain word hword).notMem rfl (by decide))
      (by rwa [length_map])
    rwa [flatMap_map, ← hcombined] at hpieces
  obtain ⟨g', hmatch, htext⟩ := matchWords_eq 4999 (words ' ' contractInput)
    { g with obfuscatedCombinedString :=
               readLines (writeContractData existed f'.obfuscatedCombinedString contractAlias)
             plainTextString := [], plainTextCombinedString := [], fTokenDecodeSuccess := false }
    rfl hplain hwords
  refine ⟨g', ?_, htext⟩
  unfold gateKeeper
  simp only [hstored]
  unfold characterDeob
  simp only [hcache, hmatch, Option.bind_eq_bind, Option.bind_some, ne_eq, not_true_eq_false,
    false_and, if_false]

/-- Five words, stored under an alias of two lines. -/
theorem obfuscation_roundTrip_test : ∃ f' file,
    characterObfuscation ⟨fun _ _ f => f, some⟩ true " this is only  a test".toList
    "two\nC|".toList 3 false
      ⟨[], [], [], [], [], [], false⟩ = some (f', file) ∧
    ∃ g', gateKeeper ⟨fun _ _ f => f, some⟩ (some file) 3 f' = some g' ∧
      g'.plainTextCombinedString = "this is only a test ".toList := by
  have hwords : words ' ' " this is only  a test".toList =
      ["this".toList, "is".toList, "only".toList, "a".toList, "test".toList] := by decide
  have hinput : (" this is only  a test".toList.all fun c => c = ' ' || c.isAlphanum) = true := by
    decide
  obtain ⟨f', file, hstored, hread⟩ := obfuscation_roundTrip ⟨fun _ _ f => f, some⟩ true
    " this is only  a test".toList "two\nC|".toList ⟨[], [], [], [], [], [], false⟩
    (fun c hc => by simpa using all_eq_true.mp hinput c hc) (by rw [hwords]; decide)
  obtain ⟨g', hdecoded, htext⟩ := hread f'
  refine ⟨f', file, hstored, g', hdecoded, htext.trans ?_⟩
  decide

end Espers
