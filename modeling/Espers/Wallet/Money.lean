import Espers.Fractal.Obfuscation
import Espers.Wallet.Records
import Mathlib.Data.List.DropRight

/-!
# Amounts as texts

`FormatMoney` writes an amount as a decimal number and cuts zeros off its end; `ParseMoney` reads a
decimal number digit by digit.

* `formatMoney_eq` : the text is the whole coins, a point, and two to eight digits.
* `parseMoney_eq_ok_iff` : **`ParseMoney` accepts** up to ten digits, and up to eight behind a
  point, and gives their value; no sum or product overflows.
* `money_roundTrip` : amounts below `10 ^ 18` are read as they were written, and what is read is the
  value of the text.
-/

namespace Espers

open Exec List Nat Bool Char

/-! ### Writing -/

/-- `%08d`. -/
def paddedDigits (width n : ℕ) : Text :=
  replicate (width - (toDigits 10 n).length) '0' ++ toDigits 10 n

/-- The loop that counts the excess zeros, from position `i` down.  There is a digit before the
point, so it stops before `str[i - 2]` is outside. -/
def trimCount (str : Text) : ℕ → ℕ
  | 0 => 0
  | i + 1 =>
    if str[i + 1]? = some '0' ∧ str[i - 1]?.any isDigit then trimCount str i + 1 else 0

/-- `FormatMoney`, for amounts that have a negative. -/
def formatMoney (n : ℤ) (fPlus : Bool) : Text :=
  let nAbs := if n > 0 then n else -n
  let quotient := nAbs / coin
  let remainder := nAbs % coin
  let str := toDigits 10 quotient.toNat ++ '.' :: paddedDigits 8 remainder.toNat
  -- right-trim excess zeros
  let str := str.take (str.length - trimCount str (str.length - 1))
  if n < 0 then '-' :: str else if fPlus ∧ n > 0 then '+' :: str else str

/-! ### Reading -/

/-- What ends `ParseMoney` without an amount: it returns `false`, or a signed sum or product
overflows. -/
inductive MoneyStop where
  | refused
  | overflow
  deriving DecidableEq

/-- The result of a signed sum or product. -/
def checked64 (n : ℤ) : Except MoneyStop ℤ :=
  if -2 ^ 63 ≤ n ∧ n < 2 ^ 63 then .ok n else .error .overflow

/-- The loop over the digits behind the point: `nUnits` and the rest of the text. -/
def parseUnits : Text → ℤ → ℤ → Except MoneyStop (ℤ × Text)
  | [], _, nUnits => .ok (nUnits, [])
  | c :: p, nMult, nUnits =>
    if c.isDigit ∧ nMult > 0 then do
      let units ← checked64 (nMult * (c.toNat - 48))
      let nUnits ← checked64 (nUnits + units)
      parseUnits p (nMult / 10) nUnits
    else .ok (nUnits, c :: p)

/-- The loop over the text: `strWhole`, `nUnits` and the rest of the text. -/
def parseText : Text → Text → Except MoneyStop (Text × ℤ × Text)
  | [], strWhole => .ok (strWhole, 0, [])
  | c :: p, strWhole =>
    if c = '.' then do
      let (nUnits, p) ← parseUnits p (cent * 10) 0
      return (strWhole, nUnits, p)
    else if isSpace c then .ok (strWhole, 0, c :: p)
    else if ¬ c.isDigit then .error .refused
    else parseText p (strWhole ++ [c])

/-- `ParseMoney`. -/
def parseMoney (str : Text) : Except MoneyStop ℤ := do
  let (strWhole, nUnits, p) ← parseText ((cStr str).dropWhile isSpace) []
  if ¬ p.all isSpace then .error .refused
  -- guard against 63 bit overflow
  else if strWhole.length > 10 then .error .refused
  else if nUnits < 0 ∨ nUnits > coin then .error .refused
  else do
    let nWhole := atoi64 (textBytes strWhole)
    let whole ← checked64 (nWhole * coin)
    checked64 (whole + nUnits)

variable {w f q d p text : Text} {c : Char} {k r : ℕ} {n u v : ℤ}

/-- The value of a text of digits. -/
abbrev digitValue (text : Text) : ℕ := ofDigitChars 10 text 0

theorem digitValue_cons (c : Char) (text : Text) :
    digitValue (c :: text) = 10 ^ text.length * (c.toNat - 48) + digitValue text := by
  rw [digitValue, ofDigitChars_cons, ofDigitChars_eq_ofDigitChars_zero, mul_zero, zero_add]
  rfl

theorem digitValue_append_zeros (text : Text) (k : ℕ) :
    digitValue (text ++ replicate k '0') = 10 ^ k * digitValue text := by
  rw [digitValue, ofDigitChars_append, ofDigitChars_replicate_zero]

theorem digitValue_lt (h : ∀ c ∈ text, c.isDigit = true) : digitValue text < 10 ^ text.length := by
  induction text with
  | nil => exact one_pos
  | cons c text ih =>
    have hc := toNat_of_isDigit (h c mem_cons_self)
    have := ih fun c' hc' => h c' (.tail _ hc')
    have hdigit : 10 ^ text.length * (c.toNat - 48) ≤ 10 ^ text.length * 9 :=
      mul_le_mul_left _ (by omega)
    rw [digitValue_cons, length_cons, pow_succ]
    omega

theorem isDigit_of_padded (hc : c ∈ paddedDigits k r) : c.isDigit = true := by
  rcases mem_append.mp hc with hc | hc
  · rw [eq_of_mem_replicate hc]
    rfl
  · exact isDigit_of_toDigits hc

theorem digitValue_padded (k r : ℕ) : digitValue (paddedDigits k r) = r := by
  rw [digitValue, paddedDigits, ofDigitChars_append, ofDigitChars_replicate_zero,
    mul_zero, ofDigitChars_ten_toDigits]

theorem length_padded (hk : 0 < k) (hr : r < 10 ^ k) : (paddedDigits k r).length = k := by
  have := (length_toDigits_le_iff (by decide) hk).mpr hr
  rw [paddedDigits, length_append, length_replicate]
  omega

/-! ### What `FormatMoney` writes -/

/-- The loop counts zeros, and leaves two digits. -/
theorem trimCount_spec (hd : ∀ c ∈ d, c.isDigit = true) (h2 : 2 ≤ k) (hk : k ≤ d.length) :
    ∃ t, trimCount (q ++ '.' :: d) (q.length + k) = t ∧ t + 2 ≤ k ∧
      d.take k = d.take (k - t) ++ replicate t '0' := by
  have hat : ∀ j, (q ++ '.' :: d)[q.length + 1 + j]? = d[j]? := by
    intro j
    rw [getElem?_append_right (by omega), show q.length + 1 + j - q.length = j + 1 by omega,
      getElem?_cons_succ]
  have hnone : ∀ j, 2 ≤ j → ∃ t, (0 : ℕ) = t ∧ t + 2 ≤ j ∧
      d.take j = d.take (j - t) ++ replicate t '0' := fun j hj =>
    ⟨0, rfl, hj, by rw [Nat.sub_zero, replicate_zero, append_nil]⟩
  induction k, h2 using le_induction with
  | base =>
    have hpoint : ((q ++ '.' :: d)[q.length]?).any isDigit = false := by
      rw [getElem?_append_right (le_refl _), Nat.sub_self]
      rfl
    rw [show q.length + 2 = q.length + 1 + 1 from rfl, trimCount, Nat.add_sub_cancel, hpoint,
      if_neg fun h => Bool.false_ne_true h.2]
    exact hnone 2 (le_refl _)
  | succ k h2 ih =>
    obtain ⟨t, ht, hle, htake⟩ := ih (by omega)
    have hlast : (q ++ '.' :: d)[q.length + k + 1]? = d[k]? := by
      rw [← hat k]
      congr 1
      omega
    have hbefore : ((q ++ '.' :: d)[q.length + k - 1]?).any isDigit = true := by
      have hlt : k - 2 < d.length := by omega
      rw [show q.length + k - 1 = q.length + 1 + (k - 2) by omega, hat, getElem?_eq_getElem hlt]
      exact hd _ (getElem_mem hlt)
    rw [show q.length + (k + 1) = q.length + k + 1 from rfl, trimCount, hlast, hbefore]
    by_cases hzero : d[k]? = some '0'
    · refine ⟨t + 1, by rw [if_pos ⟨hzero, rfl⟩, ht], by omega, ?_⟩
      rw [take_add_one, hzero, htake, Nat.add_sub_add_right, append_assoc, replicate_succ']
      rfl
    · rw [if_neg fun h => hzero h.1]
      exact hnone (k + 1) (by omega)

/-- The text of an amount: the whole coins, a point, and two to eight digits. -/
theorem formatMoney_eq (h : 0 ≤ n) : ∃ f, formatMoney n false =
    toDigits 10 (n / coin).toNat ++ '.' :: f ∧ (∀ c ∈ f, c.isDigit = true) ∧
    2 ≤ f.length ∧ f.length ≤ 8 ∧ digitValue f * 10 ^ (8 - f.length) = (n % coin).toNat := by
  have hcoin : coin = 100000000 := rfl
  obtain ⟨d, hd⟩ : ∃ d, d = paddedDigits 8 (n % coin).toNat := ⟨_, rfl⟩
  have hlen : d.length = 8 := by
    rw [hd, length_padded (by decide)]
    rw [hcoin]
    omega
  have hdigits : ∀ c ∈ d, c.isDigit = true := by
    intro c hc
    rw [hd] at hc
    exact isDigit_of_padded hc
  obtain ⟨t, ht, hle, htake⟩ :=
    trimCount_spec (q := toDigits 10 (n / coin).toNat) hdigits (k := 8) (by decide) hlen.ge
  have hf : (d.take (8 - t)).length = 8 - t := by
    rw [length_take, hlen]
    omega
  refine ⟨d.take (8 - t), ?_, fun c hc => hdigits c (mem_of_mem_take hc), by omega, by omega, ?_⟩
  · have habs : (if n > 0 then n else -n) = n := by
      split_ifs <;> omega
    rw [formatMoney, habs, if_neg (by omega), if_neg fun h => Bool.false_ne_true h.1, ← hd]
    generalize toDigits 10 (n / coin).toNat = q at ht ⊢
    have hsize : (q ++ '.' :: d).length = q.length + 8 + 1 := by
      rw [length_append, length_cons, hlen]
    rw [hsize, Nat.add_sub_cancel, ht, take_append, take_of_length_le (by omega),
      show q.length + 8 + 1 - t - q.length = 8 - t + 1 by omega, take_succ_cons]
  · rw [take_of_length_le hlen.le] at htake
    have hvalue := digitValue_padded 8 (n % coin).toNat
    rw [← hd, htake, digitValue_append_zeros] at hvalue
    rw [hf, show 8 - (8 - t) = t by omega, mul_comm]
    exact hvalue

/-! ### What `ParseMoney` reads -/

/-- The digits that the loop behind the point reads. -/
def unitDigits (k : ℕ) (p : Text) : Text := (p.takeWhile isDigit).take k

/-- `nMult` when `k` more digits are read. -/
def unitPlace (k : ℕ) : ℤ := if k = 0 then 0 else 10 ^ (k - 1)

theorem isDigit_of_unitDigits (hc : c ∈ unitDigits k p) : c.isDigit = true :=
  mem_takeWhile_imp (mem_of_mem_take hc)

theorem length_unitDigits_le (k : ℕ) (p : Text) : (unitDigits k p).length ≤ k := by
  rw [unitDigits, length_take]
  omega

theorem checked64_of_range (h : -2 ^ 63 ≤ n) (h' : n < 2 ^ 63) : checked64 n = .ok n :=
  if_pos ⟨h, h'⟩

/-- The digits behind the point are read in full, without overflow. -/
theorem parseUnits_eq (hu : 0 ≤ u) (h : u + 10 ^ k ≤ 10 ^ 8) : parseUnits p (unitPlace k) u =
    .ok (u + digitValue (unitDigits k p) * 10 ^ (k - (unitDigits k p).length),
      p.drop (unitDigits k p).length) := by
  induction p generalizing k u with
  | nil =>
    rw [parseUnits, unitDigits, takeWhile_nil, take_nil]
    simp
  | cons c p ih =>
    rw [parseUnits]
    by_cases hc : c.isDigit = true ∧ unitPlace k > 0
    · obtain ⟨k, rfl⟩ : ∃ j, k = j + 1 := by
        refine exists_eq_succ_of_ne_zero fun hk => ?_
        rw [hk] at hc
        exact absurd hc.2 (by decide)
      have hdigit := toNat_of_isDigit hc.1
      have hplace : unitPlace (k + 1) = 10 ^ k := by
        rw [unitPlace, if_neg (Nat.succ_ne_zero k), Nat.add_sub_cancel]
      have hnext : unitPlace (k + 1) / 10 = unitPlace k := by
        rw [hplace, unitPlace]
        split_ifs with hk
        · rw [hk]
          rfl
        · obtain ⟨k, rfl⟩ := exists_eq_succ_of_ne_zero hk
          rw [succ_sub_one, succ_eq_add_one, pow_succ]
          exact Int.mul_ediv_cancel _ (by decide)
      have hpow : (0 : ℤ) < 10 ^ k := by positivity
      have hlow : 0 ≤ 10 ^ k * ((c.toNat : ℤ) - 48) := mul_nonneg hpow.le (by omega)
      have hhigh : 10 ^ k * ((c.toNat : ℤ) - 48) ≤ 10 ^ k * 9 :=
        mul_le_mul_of_nonneg_left (by omega) hpow.le
      have hdigits : unitDigits (k + 1) (c :: p) = c :: unitDigits k p := by
        rw [unitDigits, takeWhile_cons_of_pos hc.1, take_succ_cons, unitDigits]
      have hnext' := ih (k := k) (u := u + 10 ^ k * ((c.toNat : ℤ) - 48)) (by omega) (by omega)
      have hlen := length_unitDigits_le k p
      rw [if_pos hc, hnext, hplace, checked64_of_range (by omega) (by omega), except_ok_bind,
        checked64_of_range (by omega) (by omega), except_ok_bind, hnext', hdigits,
        length_cons, drop_succ_cons, Nat.add_sub_add_right, digitValue_cons]
      have hsplit : (10 : ℤ) ^ k = 10 ^ (unitDigits k p).length *
          10 ^ (k - (unitDigits k p).length) := by
        rw [← pow_add, Nat.add_sub_cancel' hlen]
      rw [cast_add, cast_mul, cast_sub hdigit.1, cast_pow, hsplit]
      ring_nf
    · have hdigits : unitDigits k (c :: p) = [] := by
        rw [unitDigits]
        by_cases hdigit : c.isDigit = true
        · have hk : k = 0 := by
            by_contra hk
            refine hc ⟨hdigit, ?_⟩
            rw [unitPlace, if_neg hk]
            positivity
          rw [hk, take_zero]
        · rw [takeWhile_cons_of_neg hdigit, take_nil]
      rw [if_neg hc, hdigits]
      simp

theorem parseText_digits (hw : ∀ c ∈ w, c.isDigit = true) (strWhole : Text) :
    parseText (w ++ p) strWhole = parseText p (strWhole ++ w) := by
  induction w generalizing strWhole with
  | nil => rw [nil_append, append_nil]
  | cons c w ih =>
    have hc := hw c mem_cons_self
    have hpoint : c ≠ '.' := by
      rintro rfl
      exact absurd hc (by decide)
    rw [cons_append, parseText, if_neg hpoint,
      if_neg (by rw [isSpace_of_isDigit hc]; exact false_ne_true), if_neg (not_not.mpr hc),
      ih (fun c' hc' => hw c' (.tail _ hc')), append_assoc, singleton_append]

theorem parseText_point (p strWhole : Text) : parseText ('.' :: p) strWhole =
    .ok (strWhole, digitValue (unitDigits 8 p) * 10 ^ (8 - (unitDigits 8 p).length),
      p.drop (unitDigits 8 p).length) := by
  rw [parseText, if_pos rfl, show cent * 10 = unitPlace 8 from rfl,
    parseUnits_eq (k := 8) (le_refl 0) (by decide), zero_add]
  rfl

theorem parseText_space (hp : ∀ c ∈ p, isSpace c = true) (strWhole : Text) :
    parseText p strWhole = .ok (strWhole, 0, p) := by
  cases p with
  | nil => rfl
  | cons c p =>
    have hc := hp c mem_cons_self
    have hpoint : c ≠ '.' := by
      rintro rfl
      exact absurd hc (by decide)
    rw [parseText, if_neg hpoint, if_pos hc]

/-- A decimal number: digits, and digits of a fraction behind a point. -/
structure IsAmount (text w f : Text) : Prop where
  eq : text = w ∧ f = [] ∨ text = w ++ '.' :: f
  whole : ∀ c ∈ w, c.isDigit = true
  units : ∀ c ∈ f, c.isDigit = true

theorem IsAmount.not_space (h : IsAmount text w f) (hc : c ∈ text) : isSpace c = false := by
  rcases h.eq with ⟨rfl, -⟩ | rfl
  · exact isSpace_of_isDigit (h.whole c hc)
  · rcases mem_append.mp hc with hc | hc
    · exact isSpace_of_isDigit (h.whole c hc)
    · rcases mem_cons.mp hc with rfl | hc
      · rfl
      · exact isSpace_of_isDigit (h.units c hc)

theorem unitDigits_append (hf : ∀ c ∈ f, c.isDigit = true) (hlen : f.length ≤ k)
    (hp : ∀ c ∈ p, isSpace c = true) : unitDigits k (f ++ p) = f := by
  have hnone : p.takeWhile isDigit = [] := by
    cases p with
    | nil => rfl
    | cons c p =>
      refine takeWhile_cons_of_neg fun hc => ?_
      exact false_ne_true ((isSpace_of_isDigit hc).symm.trans (hp c mem_cons_self))
  rw [unitDigits, takeWhile_append_of_pos hf, hnone, append_nil, take_of_length_le hlen]

theorem parseText_of_isAmount (h : IsAmount text w f) (hlen : f.length ≤ 8)
    (hp : ∀ c ∈ p, isSpace c = true) :
    parseText (text ++ p) [] = .ok (w, digitValue f * 10 ^ (8 - f.length), p) := by
  rcases h.eq with ⟨rfl, rfl⟩ | rfl
  · rw [parseText_digits h.whole, nil_append, parseText_space hp]
    rfl
  · rw [append_assoc, parseText_digits h.whole, nil_append, cons_append,
      parseText_point, unitDigits_append h.units hlen hp, drop_left]

/-- What the loop has read when it ends, and it ends without overflow. -/
theorem parseText_cases (t : Text) : parseText t [] = .error .refused ∨
    ∃ text w f p, t = text ++ p ∧ IsAmount text w f ∧ f.length ≤ 8 ∧
      parseText t [] = .ok (w, digitValue f * 10 ^ (8 - f.length), p) := by
  have hw : ∀ c ∈ t.takeWhile isDigit, c.isDigit = true := fun c => mem_takeWhile_imp
  have hparse : parseText t [] =
      parseText (t.dropWhile isDigit) (t.takeWhile isDigit) := by
    have := parseText_digits hw (p := t.dropWhile isDigit) []
    rwa [takeWhile_append_dropWhile, nil_append] at this
  have ht : t = t.takeWhile isDigit ++ t.dropWhile isDigit :=
    takeWhile_append_dropWhile.symm
  have hnot : ∀ c p, t.dropWhile isDigit = c :: p → ¬ c.isDigit = true := by
    intro c p heq hc
    have := head?_dropWhile_not isDigit t
    rw [heq] at this
    simp [hc] at this
  rw [hparse]
  generalize t.takeWhile isDigit = w at hw ht ⊢
  have hwhole : IsAmount w w [] := ⟨.inl ⟨rfl, rfl⟩, hw, fun _ hc => absurd hc not_mem_nil⟩
  cases hr : t.dropWhile isDigit with
  | nil =>
    rw [hr] at ht
    exact .inr ⟨w, w, [], [], ht, hwhole, zero_le _, rfl⟩
  | cons c p =>
    have hdigit := hnot c p hr
    rw [hr] at ht
    by_cases hpoint : c = '.'
    · subst hpoint
      refine .inr ⟨w ++ '.' :: unitDigits 8 p, w, unitDigits 8 p, p.drop (unitDigits 8 p).length,
        ?_, ⟨.inr rfl, hw, fun c => isDigit_of_unitDigits⟩, length_unitDigits_le 8 p,
        parseText_point p w⟩
      have hprefix : unitDigits 8 p <+: p := (List.take_prefix _ _).trans (List.takeWhile_prefix _)
      rw [ht, append_assoc, cons_append, ← prefix_append_drop hprefix]
    · by_cases hspace : isSpace c = true
      · refine .inr ⟨w, w, [], c :: p, ht, hwhole, zero_le _, ?_⟩
        rw [parseText, if_neg hpoint, if_pos hspace]
        rfl
      · left
        rw [parseText, if_neg hpoint, if_neg hspace, if_pos hdigit]

/-! ### Acceptance -/

/-- The text without the spaces at its ends. -/
def trim (s : Text) : Text := (s.dropWhile isSpace).rdropWhile isSpace

theorem trim_eq {s : Text} (hs : s.dropWhile isSpace = text ++ p)
    (hp : ∀ c ∈ p, isSpace c = true) (htext : ∀ c ∈ text, isSpace c = false) :
    trim s = text := by
  have hdrop : text.reverse.dropWhile isSpace = text.reverse := by
    refine dropWhile_eq_self_iff.mpr fun hlen => ?_
    rw [htext _ (mem_reverse.mp (getElem_mem hlen))]
    exact false_ne_true
  rw [trim, hs, List.rdropWhile, reverse_append,
    dropWhile_append_of_pos fun c hc => hp c (mem_reverse.mp hc), hdrop,
    reverse_reverse]

theorem exists_spaces (s : Text) : ∃ p, s.dropWhile isSpace = trim s ++ p ∧
    ∀ c ∈ p, isSpace c = true :=
  ⟨(s.dropWhile isSpace).rtakeWhile isSpace, rdropWhile_append_rtakeWhile.symm,
    fun _ hc => mem_rtakeWhile_imp hc⟩

/-- The amount that a decimal number stands for, in the smallest unit. -/
def amountOf (w f : Text) : ℤ := digitValue w * coin + digitValue f * 10 ^ (8 - f.length)

theorem units_lt (hf : ∀ c ∈ f, c.isDigit = true) (hlen : f.length ≤ 8) :
    (digitValue f * 10 ^ (8 - f.length) : ℤ) < coin := by
  have hlt := mul_lt_mul_of_pos_right (digitValue_lt hf)
    (pow_pos (n := 8 - f.length) (show 0 < 10 by decide))
  rw [← Nat.pow_add, Nat.add_sub_cancel' hlen] at hlt
  rw [show coin = ((10 ^ 8 : ℕ) : ℤ) from rfl]
  exact_mod_cast hlt

theorem amountOf_range (h : IsAmount text w f) (hw : w.length ≤ 10) (hf : f.length ≤ 8) :
    0 ≤ amountOf w f ∧ amountOf w f < 10 ^ 18 := by
  have hcoin : coin = 100000000 := rfl
  have hunits := units_lt h.units hf
  have hpos : (0 : ℤ) ≤ digitValue f * 10 ^ (8 - f.length) := by positivity
  have hlt := (digitValue_lt h.whole).trans_le (Nat.pow_le_pow_right (by decide) hw)
  rw [amountOf, hcoin] at *
  omega

/-- What `ParseMoney` gives for what its loop has read. -/
theorem parseMoney_of_text {s : Text} (h : IsAmount text w f) (hlen : f.length ≤ 8)
    (hparse : parseText ((cStr s).dropWhile isSpace) [] =
      .ok (w, digitValue f * 10 ^ (8 - f.length), p)) :
    parseMoney s = if p.all isSpace = true ∧ w.length ≤ 10 then .ok (amountOf w f) else
      .error .refused := by
  have hcoin : coin = 100000000 := rfl
  have hunits := units_lt h.units hlen
  have hpos : (0 : ℤ) ≤ digitValue f * 10 ^ (8 - f.length) := by positivity
  rw [parseMoney, hparse, except_ok_bind]
  simp only
  by_cases hp : p.all isSpace = true
  · rw [if_neg (not_not.mpr hp)]
    by_cases hw : w.length ≤ 10
    · have hlt := (digitValue_lt h.whole).trans_le (Nat.pow_le_pow_right (by decide) hw)
      have hvalue : atoi64 (textBytes w) = digitValue w :=
        atoi64_of_digits h.whole (hlt.trans (by decide))
      have hrange : (0 : ℤ) ≤ digitValue w * coin ∧ digitValue w * coin < 10 ^ 18 := by
        rw [hcoin]
        omega
      rw [if_neg (by omega), if_neg (by omega), if_pos ⟨hp, hw⟩, hvalue,
        checked64_of_range (by omega) (by omega), except_ok_bind,
        checked64_of_range (by omega) (by omega), amountOf]
    · rw [if_pos (by omega), if_neg fun h => hw h.2]
  · rw [if_pos hp, if_neg fun h => hp h.1]

/-- **`ParseMoney` accepts the decimal numbers** of up to ten digits, and up to eight behind the
point, and gives their values. -/
theorem parseMoney_eq_ok_iff {s : Text} : parseMoney s = .ok v ↔
    ∃ w f, IsAmount (trim (cStr s)) w f ∧ w.length ≤ 10 ∧ f.length ≤ 8 ∧ v = amountOf w f := by
  constructor
  · intro hok
    rcases parseText_cases ((cStr s).dropWhile isSpace) with hrefused | h
    · rw [parseMoney, hrefused] at hok
      cases hok
    · obtain ⟨text, w, f, p, ht, hamount, hlen, hparse⟩ := h
      rw [parseMoney_of_text hamount hlen hparse] at hok
      split_ifs at hok with hcond
      cases hok
      have hp := all_eq_true.mp hcond.1
      rw [trim_eq ht hp fun c => hamount.not_space]
      exact ⟨w, f, hamount, hcond.2, hlen, rfl⟩
  · rintro ⟨w, f, hamount, hw, hlen, rfl⟩
    obtain ⟨p, ht, hp⟩ := exists_spaces (cStr s)
    rw [parseMoney_of_text hamount hlen (by rw [ht, parseText_of_isAmount hamount hlen hp]),
      if_pos ⟨all_eq_true.mpr hp, hw⟩]

theorem parseMoney_ne_overflow (s : Text) : parseMoney s ≠ .error .overflow := by
  rcases parseText_cases ((cStr s).dropWhile isSpace) with hrefused | h
  · rw [parseMoney, hrefused]
    simp
  · obtain ⟨text, w, f, p, -, hamount, hlen, hparse⟩ := h
    rw [parseMoney_of_text hamount hlen hparse]
    split_ifs <;> simp

example : parseMoney " 1.5 ".toList = .ok 150000000 := by decide

/-! ### Round trip -/

theorem IsAmount.whole_eq (h : IsAmount (q ++ '.' :: d) w f) (hq : ∀ c ∈ q, c.isDigit = true) :
    w = q := by
  have hstop : ∀ (l r : Text), (∀ c ∈ l, c.isDigit = true) →
      (l ++ '.' :: r).takeWhile isDigit = l := by
    intro l r hl
    rw [takeWhile_append_of_pos hl, takeWhile_cons_of_neg (by decide), append_nil]
  rcases h.eq with ⟨heq, -⟩ | heq
  · have := h.whole '.' (heq ▸ mem_append_right _ mem_cons_self)
    exact absurd this (by decide)
  · rw [← hstop q d hq, heq, hstop w f h.whole]

/-- The text of an amount is a decimal number without spaces. -/
theorem formatMoney_isAmount (h : 0 ≤ n) : ∃ f,
    trim (cStr (formatMoney n false)) = toDigits 10 (n / coin).toNat ++ '.' :: f ∧
    IsAmount (trim (cStr (formatMoney n false))) (toDigits 10 (n / coin).toNat) f ∧
    f.length ≤ 8 ∧ amountOf (toDigits 10 (n / coin).toNat) f = n := by
  have hcoin : coin = 100000000 := rfl
  obtain ⟨f, hformat, hf, -, hlen, hvalue⟩ := formatMoney_eq h
  have hamount : IsAmount (formatMoney n false) (toDigits 10 (n / coin).toNat) f :=
    ⟨.inr hformat, fun c hc => isDigit_of_toDigits hc, hf⟩
  have hcStr : cStr (formatMoney n false) = formatMoney n false := by
    refine takeWhile_eq_self_iff.mpr fun c hc => ?_
    rw [hformat] at hc
    refine decide_eq_true fun hnul => ?_
    subst hnul
    rcases mem_append.mp hc with hc | hc
    · exact absurd (isDigit_of_toDigits hc) (by decide)
    · rcases mem_cons.mp hc with hc | hc
      · exact absurd hc (by decide)
      · exact absurd (hf _ hc) (by decide)
  have htrim : trim (cStr (formatMoney n false)) = formatMoney n false := by
    rw [hcStr]
    refine trim_eq (p := []) ?_ (fun _ hc => absurd hc not_mem_nil) fun c => hamount.not_space
    rw [append_nil]
    refine dropWhile_eq_self_iff.mpr fun hpos => ?_
    rw [hamount.not_space (getElem_mem hpos)]
    exact false_ne_true
  refine ⟨f, htrim.trans hformat, htrim.symm ▸ hamount, hlen, ?_⟩
  rw [amountOf, digitValue, ofDigitChars_ten_toDigits]
  have hunits : (digitValue f * 10 ^ (8 - f.length) : ℤ) = (n % coin).toNat := by
    rw [← hvalue]
    rfl
  rw [hunits, hcoin]
  omega

/-- Amounts are read as they were written exactly if they have up to ten digits before the point. -/
theorem parseMoney_formatMoney (h : 0 ≤ n) : parseMoney (formatMoney n false) =
    if n < 10 ^ 18 then .ok n else .error .refused := by
  have hcoin : coin = 100000000 := rfl
  obtain ⟨f, htext, hamount, hlen, hvalue⟩ := formatMoney_isAmount h
  have hdigits : (toDigits 10 (n / coin).toNat).length ≤ 10 ↔ n < 10 ^ 18 := by
    rw [length_toDigits_le_iff (by decide) (by decide), hcoin]
    omega
  split_ifs with hlt
  · exact parseMoney_eq_ok_iff.mpr ⟨_, f, hamount, hdigits.mpr hlt, hlen, hvalue.symm⟩
  · cases hparse : parseMoney (formatMoney n false) with
    | ok v =>
      obtain ⟨w, f', hamount', hw, -⟩ := parseMoney_eq_ok_iff.mp hparse
      rw [htext] at hamount'
      rw [hamount'.whole_eq fun c hc => isDigit_of_toDigits hc] at hw
      exact absurd (hdigits.mp hw) hlt
    | error stop =>
      cases stop with
      | refused => rfl
      | overflow => exact absurd hparse (parseMoney_ne_overflow _)

/-- The value of a decimal number. -/
def decimalValue (w f : Text) : ℚ := digitValue w + digitValue f / 10 ^ f.length

theorem amountOf_eq (hf : f.length ≤ 8) : (amountOf w f : ℚ) = decimalValue w f * 10 ^ 8 := by
  have hsplit : (10 : ℚ) ^ 8 = 10 ^ f.length * 10 ^ (8 - f.length) := by
    rw [← pow_add, Nat.add_sub_cancel' hf]
  have hpow : (10 : ℚ) ^ f.length ≠ 0 := by positivity
  have hcancel : (digitValue f / 10 ^ f.length : ℚ) * (10 ^ f.length * 10 ^ (8 - f.length)) =
      digitValue f * 10 ^ (8 - f.length) := by
    rw [← mul_assoc, div_mul_cancel₀ _ hpow]
  rw [decimalValue, add_mul, hsplit, hcancel, ← hsplit, amountOf,
    show coin = ((10 ^ 8 : ℕ) : ℤ) from rfl]
  push_cast
  rfl

/-- **Amounts and texts.**  Amounts of up to ten digits before the point are read as they were
written, larger ones are refused; what is read from a text is the value of its decimal number, and
would be read again from what `FormatMoney` writes for it.  Nothing overflows. -/
theorem money_roundTrip :
    (∀ n : ℤ, 0 ≤ n → n < 10 ^ 18 → parseMoney (formatMoney n false) = .ok n) ∧
    (∀ n : ℤ, 10 ^ 18 ≤ n → n ≤ maxSingleTx → parseMoney (formatMoney n false) = .error .refused) ∧
    (∀ (s : Text) (v : ℤ), parseMoney s = .ok v →
      (∃ w f, IsAmount (trim (cStr s)) w f ∧ (v : ℚ) = decimalValue w f * 10 ^ 8) ∧
      0 ≤ v ∧ v < 2 ^ 63 ∧ parseMoney (formatMoney v false) = .ok v) ∧
    ∀ s : Text, parseMoney s ≠ .error .overflow := by
  refine ⟨fun n h hlt => ?_, fun n h _ => ?_, fun s v hparse => ?_, parseMoney_ne_overflow⟩
  · rw [parseMoney_formatMoney h, if_pos hlt]
  · rw [parseMoney_formatMoney (by omega), if_neg (by omega)]
  · obtain ⟨w, f, hamount, hw, hf, rfl⟩ := parseMoney_eq_ok_iff.mp hparse
    obtain ⟨hpos, hlt⟩ := amountOf_range hamount hw hf
    refine ⟨⟨w, f, hamount, amountOf_eq hf⟩, hpos, by omega, ?_⟩
    rw [parseMoney_formatMoney hpos, if_pos hlt]

/-- The cap of the supply is written with eleven digits. -/
theorem parseMoney_refuses_cap : 0 ≤ maxSingleTx ∧
    formatMoney maxSingleTx false = "50000000000.00".toList ∧
    parseMoney (formatMoney maxSingleTx false) ≠ .ok maxSingleTx := by
  refine ⟨by decide, by decide, by decide⟩

end Espers
