import Espers.Lib.Radix
import Mathlib.Tactic.LinearCombination

/-!
# Bytes as letters of a few bits

Encoders and decoders of texts go from item to item, with the bits that are left over, and differ in
the tables of their modes only.

* `Steps.run` : the loop loses no bit if no step does.
* `Code.Sound` : what the tables of a code have to satisfy.
* `Code.Sound.decode_encode` : **every encoding is valid and is decoded to what was encoded.**
* `Code.Sound.encode_decode` : **a valid text is the encoding of what it is decoded to.**
-/

namespace BitCode

open List Radix Nat

/-- What a loop does with an item, from its mode and what is left of the items before: the items it
gives out, the next mode and what is left then. -/
abbrev Step := ℕ → ℕ → ℕ → List ℕ × ℕ × ℕ

/-- The loop. -/
def run (step : Step) : ℕ → ℕ → List ℕ → List ℕ × ℕ × ℕ
  | mode, left, [] => ([], mode, left)
  | mode, left, x :: xs =>
    let s := step mode left x
    let r := run step s.2.1 s.2.2 xs
    (s.1 ++ r.1, r.2)

/-- Items of `i` bits became items of `o` bits, and no bit is lost: `p` is the value of the `r mode`
bits that wait, and what is left is that value, moved by `s mode`. -/
def Regrouped (i o n : ℕ) (r s : ℕ → ℕ) (mode p : ℕ) (xs : List ℕ)
    (res : List ℕ × ℕ × ℕ) : Prop :=
  res.2.1 < n ∧ (∀ y ∈ res.1, y < 2 ^ o) ∧ r mode + i * xs.length = o * res.1.length + r res.2.1 ∧
    ∃ p' < 2 ^ r res.2.1, (res.2.1 = 0 ∨ res.2.2 = p' <<< s res.2.1) ∧
      p * 2 ^ (i * xs.length) + value (2 ^ i) xs = value (2 ^ o) res.1 * 2 ^ r res.2.1 + p'

/-- No step of the loop loses a bit; in mode `0` nothing waits. -/
structure Steps (step : Step) (i o n : ℕ) (r s : ℕ → ℕ) : Prop where
  modes : 0 < n ∧ r 0 = 0
  fresh : ∀ left x, step 0 left x = step 0 0 x
  kept : ∀ mode < n, ∀ p < 2 ^ r mode, ∀ x < 2 ^ i,
    Regrouped i o n r s mode p [x] (step mode (p <<< s mode) x)

variable {step : Step} {i o n k mode left p z z' w w' : ℕ} {r s : ℕ → ℕ} {xs ys : List ℕ}

theorem value_singleton (b x : ℕ) : value b [x] = x := ofDigits_singleton

theorem value_append (k : ℕ) (xs ys : List ℕ) :
    value (2 ^ k) (xs ++ ys) = value (2 ^ k) xs * 2 ^ (k * ys.length) + value (2 ^ k) ys := by
  rw [value, reverse_append, ofDigits_append, length_reverse, ← pow_mul, add_comm, mul_comm]
  rfl

theorem shiftLeft_or {a b i : ℕ} (h : b < 2 ^ i) : a <<< i ||| b = a * 2 ^ i + b := by
  rw [← shiftLeft_add_eq_or_of_lt h, shiftLeft_eq]

theorem and_mask (n : ℕ) : n &&& 1 = n % 2 ∧ n &&& 3 = n % 4 ∧ n &&& 7 = n % 8 ∧
    n &&& 15 = n % 16 ∧ n &&& 31 = n % 32 ∧ n &&& 63 = n % 64 :=
  have h := and_two_pow_sub_one_eq_mod n
  ⟨h 1, h 2, h 3, h 4, h 5, h 6⟩

/-- The bits that wait and those of an item are what the step gives out and what waits then. -/
theorem regrouped_of {mode x : ℕ} {res : List ℕ × ℕ × ℕ} (hn : res.2.1 < n)
    (hy : ∀ y ∈ res.1, y < 2 ^ o) (hlen : r mode + i = o * res.1.length + r res.2.1)
    (hleft : res.2.1 = 0 ∨ res.2.2 = ((p * 2 ^ i + x) % 2 ^ r res.2.1) <<< s res.2.1)
    (he : (p * 2 ^ i + x) / 2 ^ r res.2.1 = value (2 ^ o) res.1) :
    Regrouped i o n r s mode p [x] res :=
  ⟨hn, hy, by simpa using hlen, _, Nat.mod_lt _ (Nat.two_pow_pos _), hleft, by
    rw [value_singleton, ← he, length_singleton, mul_one, div_add_mod']⟩

/-- Digits of `k` bits, with fewer bits behind them, are grouped in one way. -/
theorem groups_inj (hx : ∀ x ∈ xs, x < 2 ^ k) (hy : ∀ y ∈ ys, y < 2 ^ k) (hz : z < k) (hz' : z' < k)
    (hlen : k * xs.length + z = k * ys.length + z') (hw : w < 2 ^ z) (hw' : w' < 2 ^ z')
    (h : value (2 ^ k) xs * 2 ^ z + w = value (2 ^ k) ys * 2 ^ z' + w') :
    xs = ys ∧ z = z' ∧ w = w' := by
  obtain rfl : z = z' := by
    simpa [mul_add_mod, mod_eq_of_lt, hz, hz'] using congrArg (· % k) hlen
  have hlength : xs.length = ys.length := Nat.eq_of_mul_eq_mul_left (by omega : 0 < k) (by omega)
  have hmod := congrArg (· % 2 ^ z) h
  have hdiv := congrArg (· / 2 ^ z) h
  simp only [mul_comm _ (2 ^ z), mul_add_mod, mod_eq_of_lt hw, mod_eq_of_lt hw',
    Nat.mul_add_div (Nat.two_pow_pos z), Nat.div_eq_of_lt hw, Nat.div_eq_of_lt hw'] at hmod hdiv
  refine ⟨reverse_injective (Nat.ofDigits_inj_of_len_eq (Nat.one_lt_two_pow (by omega)) (by simpa)
    (by simpa) (by simpa) hdiv), rfl, hmod⟩

section

variable (h : Steps step i o n r s) (hmode : mode < n) (hp : p < 2 ^ r mode)
  (hleft : mode = 0 ∨ left = p <<< s mode)
include h hmode hp hleft

theorem Steps.kept_step {x : ℕ} (hx : x < 2 ^ i) :
    Regrouped i o n r s mode p [x] (step mode left x) := by
  rcases hleft with rfl | rfl
  · rw [h.fresh, ← h.fresh (p <<< s 0)]
    exact h.kept 0 hmode p hp x hx
  · exact h.kept mode hmode p hp x hx

/-- **The loop loses no bit.** -/
theorem Steps.run (hx : ∀ x ∈ xs, x < 2 ^ i) :
    Regrouped i o n r s mode p xs (run step mode left xs) := by
  induction xs generalizing mode left p with
  | nil => exact ⟨hmode, nofun, by simp [BitCode.run], p, hp, hleft, by simp [BitCode.run, value]⟩
  | cons x xs ih =>
    obtain ⟨hn, hlt, hlen, p', hp', hleft', he⟩ := h.kept_step hmode hp hleft (hx x (.head _))
    obtain ⟨hn', hlt', hlen', q, hq, hleft'', he'⟩ := ih hn hp' hleft' fun x hm => hx x (.tail _ hm)
    rw [value_singleton] at he
    simp only [BitCode.run]
    refine ⟨hn', fun y hy => (mem_append.1 hy).elim (hlt y) (hlt' y), ?_, q, hq, hleft'', ?_⟩
    · simp only [length_append, length_cons, length_nil, mul_add] at hlen ⊢
      omega
    · have hpow := congrArg (2 ^ ·) hlen'
      simp only [pow_add] at hpow
      rw [length_cons, ← singleton_append, value_append, value_append, value_singleton]
      simp only [length_singleton, mul_one] at he
      rw [mul_succ, pow_add]
      linear_combination (2 ^ (i * xs.length)) * he + he' + value (2 ^ o) (step mode left x).1 * hpow

end

/-! ### Codes -/

/-- A code: its alphabet and the tables of its encoder and its decoder. -/
structure Code where
  /-- The bits of a letter. -/
  k : ℕ
  letter : ℕ → Char
  table : Char → Option ℕ
  encodeStep : Step
  /-- How many `=` are behind the last letter, by the mode of the encoder. -/
  padding : ℕ → ℕ
  decodeStep : Step
  /-- How many `=` are required, by the mode of the decoder; in some modes a text is not valid. -/
  required : ℕ → Option ℕ

variable (C : Code)

/-- Encode bytes. -/
def Code.encode (b : List UInt8) : List Char :=
  let r := run C.encodeStep 0 0 (b.map UInt8.toNat)
  r.1.map C.letter ++
    if r.2.1 = 0 then [] else C.letter r.2.2 :: replicate (C.padding r.2.1) '='

/-- The loop of the decoder: the bytes, the mode, what is left, and the text from the first character
on that is not in the alphabet. -/
def Code.decodeLoop : ℕ → ℕ → List Char → List ℕ × ℕ × ℕ × List Char
  | mode, left, [] => ([], mode, left, [])
  | mode, left, c :: p =>
    match C.table c with
    | none => ([], mode, left, c :: p)
    | some dec =>
      let s := C.decodeStep mode left dec
      let r := decodeLoop s.2.1 s.2.2 p
      (s.1 ++ r.1, r.2)

/-- The text is not valid when the loop ends so. -/
def Code.invalid (mode left : ℕ) (p : List Char) : Bool :=
  match C.required mode with
  | none => true
  | some 0 => false
  | some n => decide (left ≠ 0) || (range n).any (fun i => decide (p.getD i '\x00' ≠ '=')) ||
      (C.table (p.getD n '\x00')).isSome

/-- Decode a text: the bytes, and whether the text is not valid. -/
def Code.decode (s : List Char) : List UInt8 × Bool :=
  let r := C.decodeLoop 0 0 s
  (r.1.map UInt8.ofNat, C.invalid r.2.1 r.2.2.1 r.2.2.2)

/-- The text before its first character that is not in the alphabet. -/
def Code.alphabetPart (s : List Char) : List Char := s.takeWhile fun c => (C.table c).isSome

/-- The values of its letters. -/
def Code.values (s : List Char) : List ℕ := (C.alphabetPart s).filterMap C.table

/-- What the tables satisfy: `rE` and `rD` tell how many bits wait in a mode. -/
structure Code.Sound (nE nD : ℕ) (rE rD : ℕ → ℕ) : Prop where
  k_le : C.k ≤ 8
  table_letter : ∀ v < 2 ^ C.k, C.table (C.letter v) = some v
  table_lt : ∀ c, ∀ v ∈ C.table c, v < 2 ^ C.k
  table_pad : C.table '=' = none ∧ C.table '\x00' = none
  encodes : Steps C.encodeStep 8 C.k nE rE fun mode => C.k - rE mode
  decodes : Steps C.decodeStep C.k 8 nD rD fun _ => 0
  required_zero : C.required 0 = some 0
  encodeHeld : ∀ mode < nE, mode ≠ 0 → 0 < rE mode ∧ rE mode < C.k ∧
    ∀ mode' < nD, rE mode + rD mode' = C.k → C.required mode' = some (C.padding mode)
  decodeHeld : ∀ mode < nD, rD mode < 8 ∧ (rD mode = 0 → mode = 0) ∧
    (C.required mode = none ∨ rD mode < C.k) ∧ (C.required mode = some 0 → mode = 0)

variable {C} {nE nD : ℕ} {rE rD : ℕ → ℕ} {t : List Char} {b : List UInt8}

theorem toNat_lt_of_mem : ∀ x ∈ b.map UInt8.toNat, x < 2 ^ 8 := by
  intro x hx
  obtain ⟨c, -, rfl⟩ := mem_map.1 hx
  exact c.toNat_lt

/-- The letters of an encoding have the bits of the bytes, and fewer than `k` zeros behind them; the
padding is what the decoder requires when as many bits wait. -/
theorem Code.Sound.encode_letters (h : C.Sound nE nD rE rD) (b : List UInt8) :
    ∃ (L : List ℕ) (z pad : ℕ), C.encode b = L.map C.letter ++ replicate pad '=' ∧
      (∀ y ∈ L, y < 2 ^ C.k) ∧ C.k * L.length = 8 * b.length + z ∧
      value (2 ^ C.k) L = value (2 ^ 8) (b.map UInt8.toNat) * 2 ^ z ∧
      (z = 0 ∨ z < C.k) ∧ ∀ mode < nD, rD mode = z → C.required mode = some pad := by
  obtain ⟨hn, hlt, hlen, p, hp, hleft, he⟩ := h.encodes.run h.encodes.modes.1
    (Nat.two_pow_pos _ : 0 < _) (.inl rfl) (toNat_lt_of_mem (b := b))
  rw [h.encodes.modes.2, length_map, zero_add] at hlen
  rw [zero_mul, zero_add] at he
  rw [Code.encode, he]
  generalize BitCode.run C.encodeStep 0 0 (b.map UInt8.toNat) = r at *
  by_cases hzero : r.2.1 = 0
  · rw [hzero, h.encodes.modes.2] at hlen hp ⊢
    obtain rfl : p = 0 := lt_one_iff.1 hp
    refine ⟨r.1, 0, 0, rfl, hlt, by omega, by simp, .inl rfl, fun mode hm hr => ?_⟩
    rw [(h.decodeHeld mode hm).2.1 hr]
    exact h.required_zero
  · obtain ⟨hpos, hlt', hpad⟩ := h.encodeHeld _ hn hzero
    have hpow : 2 ^ C.k = 2 ^ rE r.2.1 * 2 ^ (C.k - rE r.2.1) := by
      rw [← pow_add]
      congr 1
      omega
    have hr := hleft.resolve_left hzero
    rw [shiftLeft_eq] at hr
    refine ⟨r.1 ++ [r.2.2], C.k - rE r.2.1, C.padding r.2.1, ?_, ?_, ?_, ?_, .inr (by omega),
      fun mode hm hr => hpad mode hm (by omega)⟩
    · rw [if_neg hzero, map_append, append_assoc]
      rfl
    · intro y hy
      rcases mem_append.1 hy with hy | hy
      · exact hlt y hy
      · rw [mem_singleton.1 hy, hr, hpow]
        exact Nat.mul_lt_mul_of_pos_right hp (Nat.two_pow_pos _)
    · rw [length_append, length_singleton, mul_add]
      omega
    · rw [value_append, value_singleton, hr, length_singleton, mul_one, hpow]
      ring

theorem Code.decodeLoop_eq (mode left : ℕ) (t : List Char) : C.decodeLoop mode left t =
    let r := BitCode.run C.decodeStep mode left (C.values t)
    (r.1, r.2.1, r.2.2, t.dropWhile fun c => (C.table c).isSome) := by
  induction t generalizing mode left with
  | nil => rfl
  | cons c t ih =>
    rw [Code.decodeLoop, Code.values, Code.alphabetPart, takeWhile_cons, dropWhile_cons]
    cases hv : C.table c with
    | none => rfl
    | some dec =>
      simp only [Option.isSome_some, if_true, filterMap_cons_some hv, ih]
      rfl

section

variable (h : C.Sound nE nD rE rD)
include h

theorem Code.Sound.values_lt (t : List Char) : ∀ v ∈ C.values t, v < 2 ^ C.k := by
  intro v hv
  obtain ⟨c, -, hc⟩ := mem_filterMap.1 hv
  exact h.table_lt c v hc

/-- The bits of a text are those of the bytes and those that wait when the loop ends. -/
theorem Code.Sound.decode_letters (t : List Char) :
    ∃ (bs : List ℕ) (mode left p : ℕ), C.decode t = (bs.map UInt8.ofNat,
        C.invalid mode left (t.dropWhile fun c => (C.table c).isSome)) ∧ (∀ y ∈ bs, y < 2 ^ 8) ∧
      C.k * (C.values t).length = 8 * bs.length + rD mode ∧
      value (2 ^ C.k) (C.values t) = value (2 ^ 8) bs * 2 ^ rD mode + p ∧
      mode < nD ∧ p < 2 ^ rD mode ∧ (mode = 0 ∨ left = p) := by
  obtain ⟨hn, hlt, hlen, p, hp, hleft, he⟩ := h.decodes.run h.decodes.modes.1
    (Nat.two_pow_pos _ : 0 < _) (.inl rfl) (h.values_lt t)
  rw [h.decodes.modes.2, zero_add] at hlen
  rw [zero_mul, zero_add] at he
  exact ⟨_, _, _, p, by rw [Code.decode, Code.decodeLoop_eq], hlt, hlen, he, hn, hp, hleft⟩

/-- **Every encoding is valid and is decoded to what was encoded.** -/
theorem Code.Sound.decode_encode (b : List UInt8) : C.decode (C.encode b) = (b, false) := by
  obtain ⟨L, z, pad, he, hL, hlen, hvalue, hz, hpad⟩ := h.encode_letters b
  have hisSome : ∀ c ∈ L.map C.letter, (C.table c).isSome = true := fun c hc => by
    obtain ⟨v, hv, rfl⟩ := mem_map.1 hc
    rw [h.table_letter v (hL v hv)]
    rfl
  have hrep : (replicate pad '=').takeWhile (fun c => (C.table c).isSome) = [] ∧
      (replicate pad '=').dropWhile (fun c => (C.table c).isSome) = replicate pad '=' := by
    cases pad <;> simp [replicate_succ, h.table_pad]
  have hvalues : C.values (C.encode b) = L := by
    rw [he, Code.values, Code.alphabetPart, takeWhile_append_of_pos hisSome, hrep.1, append_nil, filterMap_map]
    exact (filterMap_congr fun v hv => h.table_letter v (hL v hv)).trans filterMap_some
  obtain ⟨bs, mode, left, p, hd, hbs, hlen', hvalue', hn, hp, hleft⟩ := h.decode_letters (C.encode b)
  rw [hvalues] at hlen' hvalue'
  have hk := h.k_le
  obtain ⟨rfl, rfl, rfl⟩ := groups_inj (toNat_lt_of_mem (b := b)) hbs (show z < 8 by omega)
    (h.decodeHeld mode hn).1 (by rw [length_map]; omega) (Nat.two_pow_pos z) hp
    (by rw [← hvalue', hvalue, add_zero])
  have hinvalid : C.invalid mode left (replicate pad '=') = false := by
    rw [Code.invalid, hpad mode hn rfl]
    cases pad with
    | zero => rfl
    | succ pad =>
      obtain rfl : left = 0 := by
        rcases hleft with rfl | hleft
        · cases h.required_zero.symm.trans (hpad 0 hn rfl)
        · exact hleft
      have hpads : ∀ j < pad + 1, (replicate (pad + 1) '=').getD j '\x00' = '=' := fun j hj => by
        rw [getD_eq_getElem?_getD, getElem?_replicate_of_lt hj]
        rfl
      simpa [h.table_pad] using hpads
  rw [hd, he, dropWhile_append_of_pos hisSome, hrep.2, hinvalid, map_map]
  exact congrArg (·, false) ((map_congr_left fun c _ => UInt8.ofNat_toNat).trans (map_id b))

/-- **A valid text is the encoding of what it is decoded to**, up to its padding. -/
theorem Code.Sound.encode_decode (ht : (C.decode t).2 = false) :
    ∃ pad, C.encode (C.decode t).1 = (C.values t).map C.letter ++ replicate pad '=' := by
  obtain ⟨bs, mode, left, p, hd, hbs, hlen, hvalue, hn, hp, hleft⟩ := h.decode_letters t
  rw [hd] at ht ⊢
  obtain ⟨-, -, hrequired, hsome⟩ := h.decodeHeld mode hn
  obtain ⟨hr, rfl⟩ : rD mode < C.k ∧ p = 0 := by
    simp only [Code.invalid] at ht
    cases hm : C.required mode with
    | none => rw [hm] at ht; cases ht
    | some n =>
      refine ⟨hrequired.resolve_left (by rw [hm]; exact nofun), ?_⟩
      rcases hleft with rfl | rfl
      · rw [h.decodes.modes.2] at hp
        exact lt_one_iff.1 hp
      · by_contra hleft
        cases n with
        | zero =>
          rw [hsome hm, h.decodes.modes.2] at hp
          exact hleft (lt_one_iff.1 hp)
        | succ n => simp [hm, hleft] at ht
  obtain ⟨L, z, pad, he, hL, hlen', hvalue', hz, -⟩ := h.encode_letters (bs.map UInt8.ofNat)
  have hmap : (bs.map UInt8.ofNat).map UInt8.toNat = bs := by
    rw [map_map]
    exact (map_congr_left fun y hy => UInt8.toNat_ofNat_of_lt' (hbs y hy)).trans (map_id bs)
  rw [hmap] at hvalue'
  rw [length_map] at hlen'
  obtain ⟨rfl, -⟩ := groups_inj hL (h.values_lt t) hr (show z < C.k by omega) (by omega)
    (Nat.two_pow_pos _) (Nat.two_pow_pos _) (by rw [hvalue, hvalue']; ring)
  exact ⟨pad, he⟩

/-- **Valid texts that are decoded to the same bytes have the same letters.** -/
theorem Code.Sound.letters_inj {t' : List Char}
    (ht : (C.decode t).2 = false) (ht' : (C.decode t').2 = false)
    (he : (C.decode t).1 = (C.decode t').1) :
    (C.values t).map C.letter = (C.values t').map C.letter := by
  have hfilter : ∀ (t : List Char) (n : ℕ), ((C.values t).map C.letter ++
      replicate n '=').filter (· ≠ '=') = (C.values t).map C.letter := by
    intro t n
    rw [filter_append, filter_eq_self.2]
    · simp
    · rintro c hc
      obtain ⟨v, hv, rfl⟩ := mem_map.1 hc
      have hletter := h.table_letter v (h.values_lt t v hv)
      refine decide_eq_true fun heq => ?_
      rw [heq, h.table_pad.1] at hletter
      cases hletter
  obtain ⟨n, hn⟩ := h.encode_decode ht
  obtain ⟨n', hn'⟩ := h.encode_decode ht'
  rw [← hfilter t n, ← hn, he, hn', hfilter]

end

/-- The letters of a text are its alphabet part, in the writing of the encoder. -/
theorem Code.letters_eq {norm : Char → Char} (hnorm : ∀ c, ∀ v ∈ C.table c, C.letter v = norm c)
    (t : List Char) :
    (C.values t).map C.letter = (C.alphabetPart t).map norm := by
  induction t with
  | nil => rfl
  | cons c t ih =>
    rw [Code.values, Code.alphabetPart, takeWhile_cons]
    cases hv : C.table c with
    | none => rfl
    | some v =>
      simp only [Option.isSome_some, if_true, filterMap_cons_some hv, map_cons, hnorm c v hv]
      exact congrArg (norm c :: ·) ih

end BitCode
