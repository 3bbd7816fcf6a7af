import Espers.Fractal.Ignition
import Espers.Fractal.RoundTrip

/-!
# The tables of the obfuscation

`character_obfuscation` with its tables: those of 62 entries, in which it looks up the letters, and
those of 5000 entries, which have an entry for each letter of a text that is moved.  A run ends with
a fault when it indexes a table behind its end or divides by a length of zero.

* `obfuscation_inBounds_iff` : **a run stays within the tables exactly if** the words have letters
  and digits only and the lengths of the texts that are moved are from 1 to 5000.
-/

namespace Espers

open Tokens List Nat Except Bool

/-! ### The run -/

/-- One word of `character_obfuscation`. -/
def FractalMemory.obfuscateWord (fuel : ℕ) (t : Clocks) (stack : ℤ → Char) (layer_2 : Bool)
    (wrdcount : Text) (f : FractalMemory) : Except Fault FractalMemory := do
  let s ← fromTable (obfuscateLetters f.obfuscatedString wrdcount)
  let f := { f with obfuscatedString := s }
  let f ← if layer_2 then obfuscationShift fuel t stack s.length s true f else .ok f
  let buffer ← fromTable (characterAt 4)
  .ok { f with
    obfuscatedCombinedString := f.obfuscatedCombinedString ++ (f.obfuscatedString ++ buffer)
    obfuscatedString := [] }

/-- The loop over the words; `left` words may follow this one, which has the number `word_total`.
Each word has its own time. -/
def FractalMemory.obfuscateWords (fuel : ℕ) (t : ℕ → Clocks) (stack : ℤ → Char) (layer_2 : Bool) :
    ℕ → ℕ → Option (Text × Text) → FractalMemory → Except Fault FractalMemory
  | _, _, none, f => .ok f
  | left, word_total, some (wrdcount, rest), f => do
    let f ← FractalMemory.obfuscateWord fuel (t word_total) stack layer_2 wrdcount f
    match left with
    | 0 => .ok f
    | left + 1 =>
      FractalMemory.obfuscateWords fuel t stack layer_2 left (word_total + 1) (next ' ' rest) f

/-- "Obfuscate whole output data". -/
def FractalMemory.obfuscateWhole (fuel : ℕ) (t : Clocks) (stack : ℤ → Char) (contractType : ℤ)
    (f : FractalMemory) : Except Fault FractalMemory :=
  if contractType ≠ 3 then do
    let f ← obfuscationShift fuel t stack f.obfuscatedCombinedString.length
      f.obfuscatedCombinedString false f
    let buffer ← fromTable (characterAt 0)
    -- Write read key to end of output
    .ok { f with
      obfuscatedCombinedString :=
        f.obfuscatedCombinedString ++ (buffer ++ f.singleLayerKey ++ buffer) }
  else .ok f

/-- The memory after the texts of an earlier run are cleared. -/
def FractalMemory.cleared (f : FractalMemory) : FractalMemory := { f with
  secondLayerKey := []
  singleLayerKey := []
  obfuscatedCombinedString := []
  obfuscatedString := [] }

/-- `character_obfuscation`: the memory, and what is in the file of the contract. -/
def FractalMemory.characterObfuscation (fuel : ℕ) (t : ℕ → Clocks) (stack : ℤ → Char)
    (existed : Bool) (contractInput contractAlias : Text) (contractType : ℤ) (layer_2 : Bool)
    (f : FractalMemory) : Except Fault (FractalMemory × Text) := do
  -- at most 5000 words
  let f ← FractalMemory.obfuscateWords fuel t stack layer_2 4999 1
    (next ' ' (cStr contractInput)) f.cleared
  let f ← f.obfuscateWhole fuel (t 0) stack contractType
  .ok (f, writeContractData existed f.obfuscatedCombinedString contractAlias)

variable {n fuel : ℕ} {t : Clocks} {w : Text} {stack : ℤ → Char} {f f' : FractalMemory}

/-! ### Words -/

theorem length_code {c : Char} (hc : c.isAlphanum = true) : (code c).length = 12 := by
  obtain ⟨⟨i, -, hchar, hcode, -⟩, -⟩ := code_spec hc
  obtain ⟨cd, hcd, hlen, -⟩ := exists_codeAt (lt_of_characterAt hchar)
  rw [Option.some.inj (hcode.symm.trans hcd), hlen]

theorem length_obfuscated (h : Plain w) : (obfuscated w).length = 13 * w.length := by
  induction w with
  | nil => rfl
  | cons c w ih =>
    rw [obfuscated_cons, length_append, length_cons, ih h.tail, length_cons,
      length_code (h c (.head _))]
    omega

/-- The loop over the table of letters runs behind its end for any other character. -/
theorem obfuscateLetters_eq_none (h : ¬Plain w) (s : Text) : obfuscateLetters s w = none := by
  induction w generalizing s with
  | nil => exact absurd (fun c hc => by cases hc) h
  | cons c w ih =>
    by_cases hc : c.isAlphanum = true
    · obtain ⟨⟨i, hdetect, -, hcode, -⟩, -⟩ := code_spec hc
      have hbuffer := characterAt_buffers.2.2.2
      rw [obfuscateLetters, hdetect, hcode, hbuffer]
      refine ih (fun hplain => h fun d hd => ?_) _
      rcases mem_cons.1 hd with rfl | hd
      · exact hc
      · exact hplain d hd
    · have hnone : detect (fun i => characterAt i = some [c]) = 62 := by
        rw [detect, find?_eq_none.2]
        · rfl
        · intro i _ hfound
          obtain ⟨d, hd, halpha⟩ := of_characterAt (of_decide_eq_true hfound)
          rw [(List.cons.inj hd).1] at hc
          exact hc halpha
      have hcode : codeAt 62 = none := rfl
      rw [obfuscateLetters, hnone, hcode]
      rfl

/-- A word has letters and digits only, and its code fits the tables if it is moved. -/
def WordFits (layer_2 : Bool) (w : Text) : Prop :=
  Plain w ∧ (layer_2 = true → 13 * w.length ≤ 5000)

/-- The length of what is kept of a word: its code and a buffer; if it is moved, the first letter of
the code is replaced by the first entry of the cache. -/
def keptLength (layer_2 : Bool) (tooth : ℕ) (w : Text) : ℕ :=
  if layer_2 then tooth + 13 * w.length else 13 * w.length + 1

/-- The length of what is kept of some words. -/
def combinedLength (layer_2 : Bool) (tooth : ℕ) (words : List Text) : ℕ :=
  (words.map (keptLength layer_2 tooth)).sum

/-- What a word leaves. -/
def Worded (layer_2 : Bool) (w : Text) (f f' : FractalMemory) : Prop :=
  f'.obfuscatedString = [] ∧ f'.obCache 0 = f.obCache 0 ∧ f'.obfuscatedCombinedString.length =
      f.obfuscatedCombinedString.length + keptLength layer_2 (f.obCache 0).length w

theorem obfuscateWord_plain (h : Plain w) (hf : f.obfuscatedString = []) (fuel : ℕ) (t : Clocks)
    (stack : ℤ → Char) (layer_2 : Bool) :
    FractalMemory.obfuscateWord fuel t stack layer_2 w f =
      (if layer_2 then ignition fuel t stack (obfuscated w).length (obfuscated w)
          { f with obfuscatedString := obfuscated w }
        else .ok { f with obfuscatedString := obfuscated w }) >>= fun f =>
        .ok { f with
          obfuscatedCombinedString := f.obfuscatedCombinedString ++ (f.obfuscatedString ++ ['C'])
          obfuscatedString := [] } := by
  have hbuffer := characterAt_buffers.2.2.1
  rw [FractalMemory.obfuscateWord, hf, obfuscateLetters_eq h, hbuffer]
  cases layer_2 <;> rfl

theorem obfuscated_ne_nil (hw : w ≠ []) (h : Plain w) : obfuscated w ≠ [] := by
  refine length_pos_iff.1 ?_
  rw [length_obfuscated h]
  have := length_pos_iff.2 hw
  omega

variable {layer_2 : Bool}

/-- A word that fits stays within the tables. -/
theorem obfuscateWord_spec (hw : w ≠ []) (hfit : WordFits layer_2 w)
    (hf : f.obfuscatedString = []) (fuel : ℕ) (t : Clocks) (stack : ℤ → Char) :
    InBounds (FractalMemory.obfuscateWord fuel t stack layer_2 w f) ∧
      ∀ f', FractalMemory.obfuscateWord fuel t stack layer_2 w f = .ok f' →
        Worded layer_2 w f f' := by
  have hlen := length_obfuscated hfit.1
  rw [obfuscateWord_plain hfit.1 hf]
  cases layer_2 with
  | false =>
    refine ⟨inBounds_ok _, fun f' h => ?_⟩
    rw [← ok.inj h]
    refine ⟨rfl, rfl, ?_⟩
    rw [length_append, length_append, hlen]
    rfl
  | true =>
    have hle : (obfuscated w).length ≤ tableSize := hlen ▸ hfit.2 rfl
    obtain ⟨hin, hspec⟩ := ignition_spec (obfuscated_ne_nil hw hfit.1) hle fuel t stack
      { f with obfuscatedString := obfuscated w }
    refine ⟨hin.bind fun _ _ => inBounds_ok _, fun f' h => ?_⟩
    cases hrun : ignition fuel t stack (obfuscated w).length (obfuscated w)
        { f with obfuscatedString := obfuscated w } with
    | error e =>
      rw [hrun] at h
      cases h
    | ok f1 =>
      rw [hrun] at h
      obtain ⟨hzero, hcombined, hlength⟩ := hspec f1 hrun
      rw [← ok.inj h]
      refine ⟨rfl, hzero, ?_⟩
      rw [length_append, length_append, hcombined, length_singleton, hlength, hlen]
      rfl

/-- A word ends: with a fault if it does not fit. -/
theorem obfuscateWord_ends (hw : w ≠ []) (hint : layer_2 = true → 13 * w.length < 2 ^ 31)
    (ht : (2 ^ 31 : ℤ) ≤ (t.seed_1 + t.seed_2).toInt) :
    ∃ k, ∀ fuel, k ≤ fuel → ∀ stack f, f.obfuscatedString = [] →
      (WordFits layer_2 w → ∃ f', FractalMemory.obfuscateWord fuel t stack layer_2 w f = .ok f') ∧
      (¬WordFits layer_2 w →
        FractalMemory.obfuscateWord fuel t stack layer_2 w f = .error .outsideTable) := by
  by_cases hplain : Plain w
  · cases layer_2 with
    | false =>
      have hfit : WordFits false w := ⟨hplain, fun hlayer => absurd hlayer false_ne_true⟩
      refine ⟨0, fun fuel _ stack f hf => ⟨fun _ => ?_, fun h => absurd hfit h⟩⟩
      rw [obfuscateWord_plain hplain hf]
      exact ⟨_, rfl⟩
    | true =>
      have hlen := length_obfuscated hplain
      have hpos := length_pos_iff.2 (obfuscated_ne_nil hw hplain)
      obtain ⟨k, hk⟩ := ignition_ends hpos (hlen ▸ hint rfl) ht
      refine ⟨k, fun fuel hfuel stack f hf => ?_⟩
      rw [obfuscateWord_plain hplain hf]
      have hrun := hk fuel hfuel stack (obfuscated w)
        { f with obfuscatedString := obfuscated w } rfl
      refine ⟨fun hfit => ?_, fun hfit => ?_⟩
      · have hle : (obfuscated w).length ≤ tableSize := hlen ▸ hfit.2 rfl
        rw [if_pos hle] at hrun
        obtain ⟨f', hf'⟩ := hrun
        rw [hf']
        exact ⟨_, rfl⟩
      · have hgt : ¬(obfuscated w).length ≤ tableSize := fun hle =>
          hfit ⟨hplain, fun _ => hlen ▸ hle⟩
        rw [if_neg hgt] at hrun
        rw [hrun]
        rfl
  · refine ⟨0, fun fuel _ stack f hf => ⟨fun h => absurd h.1 hplain, fun _ => ?_⟩⟩
    rw [FractalMemory.obfuscateWord, obfuscateLetters_eq_none hplain]
    rfl

/-! ### The whole text -/

theorem obfuscateWords_cons (fuel : ℕ) (t : ℕ → Clocks) (stack : ℤ → Char) (layer_2 : Bool)
    (left k : ℕ) (w rest : Text) (f : FractalMemory) :
    FractalMemory.obfuscateWords fuel t stack layer_2 left k (some (w, rest)) f =
      FractalMemory.obfuscateWord fuel (t k) stack layer_2 w f >>= fun f =>
        match left with
        | 0 => .ok f
        | left + 1 =>
          FractalMemory.obfuscateWords fuel t stack layer_2 left (k + 1) (next ' ' rest) f := by
  cases left <;> rfl

/-- Words that fit stay within the tables. -/
theorem obfuscateWords_spec (left k : ℕ) (s : Text)
    (hfit : ∀ w ∈ (words ' ' s).take (left + 1), WordFits layer_2 w)
    (hf : f.obfuscatedString = []) (fuel : ℕ) (t : ℕ → Clocks) (stack : ℤ → Char) :
    InBounds (FractalMemory.obfuscateWords fuel t stack layer_2 left k (next ' ' s) f) ∧
      ∀ f', FractalMemory.obfuscateWords fuel t stack layer_2 left k (next ' ' s) f = .ok f' →
        f'.obfuscatedCombinedString.length = f.obfuscatedCombinedString.length +
          combinedLength layer_2 (f.obCache 0).length ((words ' ' s).take (left + 1)) := by
  induction left using Nat.strong_induction_on generalizing k s f with
  | _ left ih =>
    cases hnext : next ' ' s with
    | none =>
      rw [words_of_next_eq_none hnext, FractalMemory.obfuscateWords]
      exact ⟨inBounds_ok f, fun f' h => by rw [← ok.inj h]; rfl⟩
    | some p =>
      obtain ⟨w, rest⟩ := p
      obtain ⟨hwords, hne, -, -, -⟩ := of_next_eq_some hnext
      rw [hwords, take_succ_cons] at hfit ⊢
      obtain ⟨hin, hspec⟩ := obfuscateWord_spec hne (hfit w (.head _)) hf fuel (t k) stack
      rw [obfuscateWords_cons]
      cases hrun : FractalMemory.obfuscateWord fuel (t k) stack layer_2 w f with
      | error e =>
        rw [hrun] at hin
        exact ⟨hin, fun f' h => by cases h⟩
      | ok f1 =>
        obtain ⟨hstring, hzero, hlength⟩ := hspec f1 hrun
        cases left with
        | zero => exact ⟨inBounds_ok f1, fun f' h => by rw [← ok.inj h, hlength]; rfl⟩
        | succ left =>
          obtain ⟨hin', hspec'⟩ := ih left left.lt_succ_self (k + 1) rest
            (fun w hw => hfit w (.tail _ hw)) hstring
          refine ⟨hin', fun f' h => ?_⟩
          rw [hspec' f' h, hlength, hzero, combinedLength, combinedLength, map_cons, sum_cons,
            add_assoc]

/-- The loop over the words ends: with a fault if one of them does not fit. -/
theorem obfuscateWords_ends (left : ℕ) (s : Text)
    (hint : ∀ w ∈ (words ' ' s).take (left + 1), layer_2 = true → 13 * w.length < 2 ^ 31)
    (ht : (2 ^ 31 : ℤ) ≤ (t.seed_1 + t.seed_2).toInt) :
    ∃ k, ∀ fuel, k ≤ fuel → ∀ i stack f, f.obfuscatedString = [] →
      ((∀ w ∈ (words ' ' s).take (left + 1), WordFits layer_2 w) → ∃ f',
        FractalMemory.obfuscateWords fuel (fun _ => t) stack layer_2 left i (next ' ' s) f =
          .ok f') ∧
      (¬(∀ w ∈ (words ' ' s).take (left + 1), WordFits layer_2 w) →
        FractalMemory.obfuscateWords fuel (fun _ => t) stack layer_2 left i (next ' ' s) f =
          .error .outsideTable) := by
  induction left using Nat.strong_induction_on generalizing s with
  | _ left ih =>
    cases hnext : next ' ' s with
    | none =>
      rw [words_of_next_eq_none hnext]
      refine ⟨0, fun fuel _ i stack f _ => ⟨fun _ => ⟨f, by cases left <;> rfl⟩, fun h => ?_⟩⟩
      exact absurd (fun w hw => by cases hw) h
    | some p =>
      obtain ⟨w, rest⟩ := p
      obtain ⟨hwords, hne, -, -, -⟩ := of_next_eq_some hnext
      rw [hwords, take_succ_cons] at hint ⊢
      obtain ⟨k1, hk1⟩ := obfuscateWord_ends hne (hint w (.head _)) ht
      cases left with
      | zero =>
        refine ⟨k1, fun fuel hfuel i stack f hf => ?_⟩
        obtain ⟨hfits, hfault⟩ := hk1 fuel hfuel stack f hf
        rw [obfuscateWords_cons, take_zero, forall_mem_singleton]
        refine ⟨fun h => ?_, fun h => by rw [hfault h]; rfl⟩
        obtain ⟨f', hrun⟩ := hfits h
        exact ⟨f', by rw [hrun]; rfl⟩
      | succ left =>
        obtain ⟨k2, hk2⟩ := ih left left.lt_succ_self rest fun w hw => hint w (.tail _ hw)
        refine ⟨max k1 k2, fun fuel hfuel i stack f hf => ?_⟩
        obtain ⟨hfits, hfault⟩ := hk1 fuel (by omega) stack f hf
        rw [obfuscateWords_cons, forall_mem_cons]
        by_cases hw : WordFits layer_2 w
        · obtain ⟨f1, hrun⟩ := hfits hw
          have hspec := (obfuscateWord_spec hne hw hf fuel t stack).2 f1 hrun
          obtain ⟨hfits', hfault'⟩ := hk2 fuel (by omega) (i + 1) stack f1 hspec.1
          rw [hrun]
          exact ⟨fun h => hfits' h.2, fun h => hfault' fun hrest => h ⟨hw, hrest⟩⟩
        · rw [hfault hw]
          exact ⟨fun h => absurd h.1 hw, fun _ => rfl⟩

/-- The words of a contract that are obfuscated. -/
def contractWords (contractInput : Text) : List Text := (words ' ' (cStr contractInput)).take 5000

/-- The words fit the tables, and so does their text if it is moved. -/
def ContractFits (contractInput : Text) (contractType : ℤ) (layer_2 : Bool) (tooth : ℕ) : Prop :=
  (∀ w ∈ contractWords contractInput, WordFits layer_2 w) ∧
    (contractType ≠ 3 → 0 < combinedLength layer_2 tooth (contractWords contractInput) ∧
      combinedLength layer_2 tooth (contractWords contractInput) ≤ 5000)

theorem obfuscateWhole_inBounds {contractType : ℤ} (h : contractType ≠ 3 →
      0 < f.obfuscatedCombinedString.length ∧ f.obfuscatedCombinedString.length ≤ 5000)
    (fuel : ℕ) (t : Clocks) (stack : ℤ → Char) :
    InBounds (f.obfuscateWhole fuel t stack contractType) := by
  have hbuffer := characterAt_buffers.1
  rw [FractalMemory.obfuscateWhole, hbuffer]
  split_ifs with htype
  · obtain ⟨hpos, hle⟩ := h htype
    exact (flameout_inBounds (length_pos_iff.1 hpos) hle fuel t stack f).bind
      fun _ _ => inBounds_ok _
  · exact inBounds_ok f

/-- A text that does not fit the tables is a fault. -/
theorem obfuscateWhole_fault {contractType : ℤ} (htype : contractType ≠ 3)
    (hn : n = 0 ∨ 5000 < n) (hn' : n < 2 ^ 31) (ht : (2 ^ 31 : ℤ) ≤ (t.seed_1 + t.seed_2).toInt) :
    ∃ k, ∀ fuel, k ≤ fuel → ∀ (stack : ℤ → Char) (f : FractalMemory),
      f.obfuscatedCombinedString.length = n →
        ¬InBounds (f.obfuscateWhole fuel t stack contractType) := by
  have hfault : ∀ {e : Fault}, e ≠ .outOfFuel → ∀ {fuel : ℕ} {stack : ℤ → Char}
      {f : FractalMemory}, flameout fuel t stack f.obfuscatedCombinedString.length
        f.obfuscatedCombinedString f = .error e →
          ¬InBounds (f.obfuscateWhole fuel t stack contractType) := by
    intro e he fuel stack f hrun hin
    refine he (hin e ?_)
    rw [FractalMemory.obfuscateWhole, if_pos htype, obfuscationShift, if_neg Bool.false_ne_true,
      hrun]
    rfl
  rcases hn with rfl | hgt
  · refine ⟨0, fun fuel _ stack f hlen => hfault (by decide) (e := .zeroLength) ?_⟩
    rw [flameout_eq, hlen]
    rfl
  · obtain ⟨k, hk⟩ := flameout_outside hgt hn' ht
    exact ⟨k, fun fuel hfuel stack f hlen =>
      hfault (by decide) (hk fuel hfuel stack _ f hlen)⟩

/-- **The tables hold a contract exactly if it fits them.**  The length of what is kept is an `int`,
and the first entry of the cache is that of an earlier run. -/
theorem obfuscation_inBounds_iff (contractInput contractAlias : Text) (contractType : ℤ)
    (layer_2 : Bool) (existed : Bool) (f : FractalMemory)
    (hint : combinedLength layer_2 (f.obCache 0).length (contractWords contractInput) < 2 ^ 31) :
    (∀ fuel t stack, InBounds (f.characterObfuscation fuel t stack existed contractInput
      contractAlias contractType layer_2)) ↔
      ContractFits contractInput contractType layer_2 (f.obCache 0).length := by
  constructor
  · intro hall
    -- at these times the seed loops end
    obtain ⟨t, ht⟩ : ∃ t : Clocks, (2 ^ 31 : ℤ) ≤ (t.seed_1 + t.seed_2).toInt :=
      ⟨⟨1700000100, 1700000000⟩, by decide⟩
    have hword : ∀ w ∈ contractWords contractInput, layer_2 = true → 13 * w.length < 2 ^ 31 := by
      rintro w hw rfl
      refine lt_of_le_of_lt ?_ hint
      have hle := single_le_sum (fun _ _ => zero_le _) _
        (mem_map_of_mem (f := keptLength true (f.obCache 0).length) hw)
      refine le_trans ?_ hle
      rw [keptLength, if_pos rfl]
      omega
    obtain ⟨k, hk⟩ := obfuscateWords_ends 4999 (cStr contractInput) hword ht
    have hfits : ∀ w ∈ contractWords contractInput, WordFits layer_2 w := by
      by_contra hnot
      have hrun := (hk k le_rfl 1 (fun _ => ' ') f.cleared rfl).2 hnot
      have hin := hall k (fun _ => t) (fun _ => ' ')
      rw [FractalMemory.characterObfuscation, hrun] at hin
      cases hin .outsideTable rfl
    refine ⟨hfits, fun htype => ?_⟩
    by_contra hnot
    obtain ⟨k', hk'⟩ := obfuscateWhole_fault htype
      (by omega) hint ht
    obtain ⟨f', hrun⟩ :=
      (hk (max k k') (le_max_left _ _) 1 (fun _ => ' ') f.cleared rfl).1 hfits
    have hlength := (obfuscateWords_spec 4999 1 (cStr contractInput) hfits rfl (max k k')
      (fun _ => t) (fun _ => ' ')).2 f' hrun
    have hin := hall (max k k') (fun _ => t) (fun _ => ' ')
    rw [FractalMemory.characterObfuscation, hrun] at hin
    refine hk' (max k k') (le_max_right _ _) (fun _ => ' ') f'
      (hlength.trans (zero_add _)) fun e he => hin e ?_
    change (f'.obfuscateWhole (max k k') t (fun _ => ' ') contractType >>= _) = _
    rw [he]
    rfl
  · rintro ⟨hfits, hwhole⟩ fuel t stack
    obtain ⟨hin, hspec⟩ := obfuscateWords_spec 4999 1 (cStr contractInput) hfits
      (f := f.cleared) rfl fuel t stack
    refine hin.bind fun f' hrun => ?_
    have hlength := (hspec f' hrun).trans (zero_add _)
    exact (obfuscateWhole_inBounds (fun htype => hlength ▸ hwhole htype) fuel (t 0) stack).bind
      fun _ _ => inBounds_ok _

/-- Two letters fit the tables. -/
theorem obfuscation_inBounds_pair : InBounds (FractalMemory.start.characterObfuscation 1000
    (fun _ => ⟨1700000100, 1700000000⟩) (fun _ => ' ') false ['H', 'i'] ['n'] 0 false) := by
  have hwords : contractWords ['H', 'i'] = [['H', 'i']] := by decide
  have hlength : combinedLength false 0 (contractWords ['H', 'i']) = 27 := by
    rfl
  refine (obfuscation_inBounds_iff ['H', 'i'] ['n'] 0 false false .start
    (hlength ▸ by decide)).2 ⟨?_, fun _ => ?_⟩ _ _ _
  · rw [hwords, forall_mem_singleton]
    exact ⟨all_eq_true.1 (by decide), fun h => absurd h false_ne_true⟩
  · change 0 < combinedLength false 0 _ ∧ combinedLength false 0 _ ≤ 5000
    decide

/-- A character that is not in the table of letters, and a text without words. -/
theorem obfuscation_outOfBounds :
    (¬∀ (fuel : ℕ) (t : ℕ → Clocks) (stack : ℤ → Char) (existed : Bool)
      (contractInput contractAlias : Text) (contractType : ℤ) (layer_2 : Bool) (f : FractalMemory),
      InBounds (f.characterObfuscation fuel t stack existed contractInput contractAlias contractType
        layer_2)) ∧
    FractalMemory.start.characterObfuscation 1 (fun _ => ⟨1700000100, 1700000000⟩) (fun _ => ' ')
      false ['!'] ['n'] 0 false = .error .outsideTable ∧
    FractalMemory.start.characterObfuscation 1 (fun _ => ⟨1700000100, 1700000000⟩) (fun _ => ' ')
      false [] ['n'] 0 false = .error .zeroLength := by
  have hbang : FractalMemory.start.characterObfuscation 1 (fun _ => ⟨1700000100, 1700000000⟩)
      (fun _ => ' ') false ['!'] ['n'] 0 false = .error .outsideTable := by
    have htoken : next ' ' (cStr ['!']) = some (['!'], []) := by decide
    rfl
  refine ⟨fun h => ?_, hbang, rfl⟩
  have hin := h 1 (fun _ => ⟨1700000100, 1700000000⟩) (fun _ => ' ') false ['!'] ['n'] 0 false
    .start .outsideTable hbang
  cases hin

end Espers
