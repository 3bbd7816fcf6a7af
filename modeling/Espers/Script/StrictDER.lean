import Espers.Script.Encoding

/-!
# Signatures in strict DER

`IsDERSignature` reads lengths out of its input and looks up bytes with them.  Here its reads are
part of the model: the answer is `none` if one of them is outside the vector.

* `derReads_ne_none` : no read is outside, with the hash type or without it.
* `derReads_iff` : what is accepted, with the hash type or without it.
* `isDERSignature_strict_iff` : **with the hash type, this is strict DER**; without it, the limits
  of the size are those of signatures with it.
-/

namespace Espers

open List Option

/-! ### The reads of `IsDERSignature` -/

/-- The checks of `R` and of `S`, which begin at `pos`. -/
def derElementReads (vchSig : List UInt8) (pos nLen : ℕ) : Option Bool := do
  let type ← vchSig[pos - 2]?
  if type ≠ 0x02 then pure false
  else if nLen = 0 then pure false
  else do
    let first ← vchSig[pos]?
    if first &&& 0x80 ≠ 0 then pure false
    else if nLen > 1 ∧ first = 0 then do
      let second ← vchSig[pos + 1]?
      pure (second &&& 0x80 != 0)
    else pure true

/-- `IsDERSignature`; `none` when it reads outside the vector. -/
def derReads (vchSig : List UInt8) (haveHashType : Bool) : Option Bool :=
  if vchSig.length < 9 then some false
  else if vchSig.length > 73 then some false
  else do
    let type ← vchSig[0]?
    if type ≠ 0x30 then pure false
    else do
      let nLen ← vchSig[1]?
      if nLen.toNat ≠ vchSig.length - (if haveHashType then 3 else 2) then pure false
      else do
        let nLenR ← vchSig[3]?
        if 5 + nLenR.toNat ≥ vchSig.length then pure false
        else do
          let nLenS ← vchSig[5 + nLenR.toNat]?
          if nLenR.toNat + nLenS.toNat + (if haveHashType then 7 else 6) ≠ vchSig.length then
            pure false
          else do
            let fR ← derElementReads vchSig 4 nLenR.toNat
            if fR then derElementReads vchSig (6 + nLenR.toNat) nLenS.toNat else pure false

/-- The bytes of a number, highest first: there are some, it is not negative, and it does not begin
with a zero byte unless it would be negative without it. -/
structure DERInteger (x : List UInt8) : Prop where
  nonempty : x ≠ []
  nonneg : (x.getD 0 0).toNat < 0x80
  minimal : 1 < x.length → x.getD 0 0 = 0 → 0x80 ≤ (x.getD 1 0).toNat

/-- `30 L 02 r R 02 s S`, with true lengths. -/
def IsDERBody (v : List UInt8) : Prop := ∃ R S, DERInteger R ∧ DERInteger S ∧
  4 + R.length + S.length < 256 ∧
  v = 0x30 :: UInt8.ofNat (4 + R.length + S.length) :: 0x02 :: UInt8.ofNat R.length ::
    (R ++ 0x02 :: UInt8.ofNat S.length :: S)

/-- `30 L 02 r R 02 s S ht`, with true lengths, of 9 to 73 bytes. -/
def IsStrictDER (v : List UInt8) : Prop :=
  (∃ body ht, v = body ++ [ht] ∧ IsDERBody body) ∧ 9 ≤ v.length ∧ v.length ≤ 73

/-! ### What is accepted -/

/-- The number of bytes behind `S`. -/
def hashTypeSize (haveHashType : Bool) : ℕ := if haveHashType then 1 else 0

set_option maxRecDepth 2000 in
theorem and_80_ne_zero (b : UInt8) : b &&& 0x80 ≠ 0 ↔ 0x80 ≤ b.toNat := by
  have hall : ∀ n < 256, (UInt8.ofNat n &&& 0x80 ≠ 0 ↔ 0x80 ≤ (UInt8.ofNat n).toNat) := by decide
  have hb := hall b.toNat b.toNat_lt
  rwa [UInt8.ofNat_toNat] at hb

/-- The checks of a number that lies in the vector. -/
theorem derElementReads_eq (pre x post : List UInt8) (type len : UInt8) :
    ∃ fOk, derElementReads (pre ++ type :: len :: (x ++ post)) (pre.length + 2) x.length =
        some fOk ∧ (fOk = true ↔ type = 0x02 ∧ DERInteger x) := by
  have htype : (pre ++ type :: len :: (x ++ post))[pre.length]? = some type := by simp
  have hat : ∀ i, (pre ++ type :: len :: (x ++ post))[pre.length + 2 + i]? = (x ++ post)[i]? := by
    intro i
    rw [getElem?_append_right (by omega),
      show pre.length + 2 + i - pre.length = i + 1 + 1 by omega, getElem?_cons_succ,
      getElem?_cons_succ]
  have hfirst := hat 0
  rw [derElementReads, Nat.add_sub_cancel, htype, hfirst, hat 1]
  simp only [bind_eq_bind, bind_some]
  split_ifs with hne hzero
  · exact ⟨false, rfl, by simp [hne]⟩
  · refine ⟨false, rfl, ?_⟩
    rw [length_eq_zero_iff.mp hzero]
    exact ⟨fun h => absurd h Bool.false_ne_true, fun h => absurd rfl h.2.nonempty⟩
  · rw [ne_eq, not_not] at hne
    subst hne
    cases x with
    | nil => exact absurd rfl hzero
    | cons b x =>
      simp only [cons_append, getElem?_cons_zero, bind_some, and_80_ne_zero]
      split_ifs with hsign hpad
      · exact ⟨false, rfl, fun h => absurd h Bool.false_ne_true, fun h => by
          have := h.2.nonneg
          rw [getD_cons_zero] at this
          omega⟩
      · obtain ⟨hlen, rfl⟩ := hpad
        cases x with
        | nil => exact absurd hlen (lt_irrefl 1)
        | cons c x =>
          refine ⟨c &&& 0x80 != 0, rfl, ?_⟩
          rw [bne_iff_ne, and_80_ne_zero]
          refine ⟨fun h => ⟨trivial, by simp, ?_, fun _ _ => h⟩, fun h => h.2.minimal hlen rfl⟩
          rw [getD_cons_zero]
          decide
      · refine ⟨true, rfl, fun _ => ⟨trivial, by simp, by simpa using hsign, fun hlen hb => ?_⟩,
          fun _ => rfl⟩
        exact absurd ⟨hlen, hb⟩ hpad

section Split

variable {a0 a1 a2 a3 b0 b1 : UInt8} {R rest : List UInt8}

/-- A vector of the right size, in its parts, when there is room for `R` in it. -/
theorem derReads_split (hR : R.length = a3.toNat)
    (h9 : 9 ≤ (a0 :: a1 :: a2 :: a3 :: (R ++ b0 :: b1 :: rest)).length)
    (h73 : (a0 :: a1 :: a2 :: a3 :: (R ++ b0 :: b1 :: rest)).length ≤ 73) (haveHashType : Bool) :
    ∃ fOk, derReads (a0 :: a1 :: a2 :: a3 :: (R ++ b0 :: b1 :: rest)) haveHashType = some fOk ∧
      (fOk = true ↔ a0 = 0x30 ∧ a1.toNat = 4 + R.length + b1.toNat ∧ a2 = 0x02 ∧ b0 = 0x02 ∧
        rest.length = b1.toNat + hashTypeSize haveHashType ∧ DERInteger R ∧
        DERInteger (rest.take b1.toNat)) := by
  have hlen : (a0 :: a1 :: a2 :: a3 :: (R ++ b0 :: b1 :: rest)).length =
      R.length + rest.length + 6 := by
    simp only [length_cons, length_append]
    omega
  have h2 : (if haveHashType then 3 else 2) = 2 + hashTypeSize haveHashType := by
    cases haveHashType <;> rfl
  have h6 : (if haveHashType then 7 else 6) = 6 + hashTypeSize haveHashType := by
    cases haveHashType <;> rfl
  have hnLenS : (a0 :: a1 :: a2 :: a3 :: (R ++ b0 :: b1 :: rest))[5 + a3.toNat]? = some b1 := by
    rw [← hR, show 5 + R.length = R.length + 1 + 1 + 1 + 1 + 1 by omega]
    simp
  obtain ⟨fR, hfR, hfR'⟩ := derElementReads_eq [a0, a1] R (b0 :: b1 :: rest) a2 a3
  rw [show ([a0, a1] : List UInt8).length + 2 = 4 from rfl, hR] at hfR
  simp only [cons_append, nil_append] at hfR
  rw [derReads, if_neg (by omega), if_neg (by omega), h2, h6, hlen]
  simp only [getElem?_cons_zero, getElem?_cons_succ, bind_eq_bind, bind_some, hnLenS, hfR]
  split_ifs with hne hmark hshort hsum hfalse
  · exact ⟨false, rfl, by simp [hne]⟩
  · refine ⟨false, rfl, fun h => absurd h Bool.false_ne_true, fun h => absurd ?_ hmark⟩
    omega
  · omega
  · refine ⟨false, rfl, fun h => absurd h Bool.false_ne_true, fun h => absurd ?_ hsum⟩
    omega
  · rw [ne_eq, not_not] at hne hsum
    have hrest : rest.take b1.toNat ++ rest.drop b1.toNat = rest := take_append_drop _ _
    obtain ⟨fS, hfS, hfS'⟩ := derElementReads_eq (a0 :: a1 :: a2 :: a3 :: R)
      (rest.take b1.toNat) (rest.drop b1.toNat) b0 b1
    rw [length_take, Nat.min_eq_left (by omega), hrest,
      show (a0 :: a1 :: a2 :: a3 :: R).length + 2 = 6 + a3.toNat by
        simp only [length_cons]; omega] at hfS
    refine ⟨fS, hfS, ?_⟩
    rw [hfS']
    have := hfR'.mp hfalse
    constructor
    · rintro ⟨hb0, hS⟩
      exact ⟨hne, by omega, this.1, hb0, by omega, this.2, hS⟩
    · rintro ⟨-, -, -, hb0, -, -, hS⟩
      exact ⟨hb0, hS⟩
  · refine ⟨false, rfl, fun h => absurd h Bool.false_ne_true, ?_⟩
    rintro ⟨-, -, ha2, -, -, hR', -⟩
    exact absurd (hfR'.mpr ⟨ha2, hR'⟩) hfalse

end Split

variable {v : List UInt8}

/-- A vector has these parts, or `R` does not fit into it. -/
theorem exists_split (h9 : 9 ≤ v.length) : ∃ a0 a1 a2 a3 w, v = a0 :: a1 :: a2 :: a3 :: w ∧
    (v.length ≤ 5 + a3.toNat ∨
      ∃ R b0 b1 rest, R.length = a3.toNat ∧ w = R ++ b0 :: b1 :: rest) := by
  match v, h9 with
  | a0 :: a1 :: a2 :: a3 :: w, h9 =>
    refine ⟨a0, a1, a2, a3, w, rfl, ?_⟩
    simp only [length_cons]
    rcases Nat.lt_or_ge w.length (a3.toNat + 2) with hlt | hge
    · exact .inl (by omega)
    · have hdrop : 2 ≤ (w.drop a3.toNat).length := by
        rw [length_drop]
        omega
      match hw : w.drop a3.toNat, hdrop with
      | b0 :: b1 :: rest, _ =>
        refine .inr ⟨w.take a3.toNat, b0, b1, rest, ?_, ?_⟩
        · rw [length_take]
          omega
        · rw [← hw, take_append_drop]

theorem derReads_of_short {a0 a1 a2 a3 : UInt8} {w : List UInt8} (haveHashType : Bool)
    (hshort : (a0 :: a1 :: a2 :: a3 :: w).length ≤ 5 + a3.toNat) :
    derReads (a0 :: a1 :: a2 :: a3 :: w) haveHashType = some false := by
  rw [derReads]
  simp only [getElem?_cons_zero, getElem?_cons_succ, bind_eq_bind, bind_some]
  split_ifs <;> rfl

/-- **No read is outside the vector**, with the hash type or without it. -/
theorem derReads_ne_none (v : List UInt8) (haveHashType : Bool) :
    derReads v haveHashType ≠ none := by
  by_cases h9 : v.length < 9
  · rw [derReads, if_pos h9]
    exact some_ne_none _
  by_cases h73 : v.length > 73
  · rw [derReads, if_neg h9, if_pos h73]
    exact some_ne_none _
  obtain ⟨a0, a1, a2, a3, w, rfl, hshort | ⟨R, b0, b1, rest, hR, rfl⟩⟩ := exists_split
    (Nat.le_of_not_lt h9)
  · rw [derReads_of_short haveHashType hshort]
    exact some_ne_none _
  · obtain ⟨fOk, hrun, -⟩ := derReads_split hR (Nat.le_of_not_lt h9) (Nat.le_of_not_lt h73)
      haveHashType
    rw [hrun]
    exact some_ne_none _

theorem ofNat_toNat_eq {n : ℕ} {b : UInt8} (h : b.toNat = n) : UInt8.ofNat n = b := by
  rw [← h, UInt8.ofNat_toNat]

/-- **What is accepted**: a signature in DER, with the hash type or without it, of 9 to 73 bytes. -/
theorem derReads_iff (v : List UInt8) (haveHashType : Bool) :
    derReads v haveHashType = some true ↔ (9 ≤ v.length ∧ v.length ≤ 73) ∧
      ∃ body tail, v = body ++ tail ∧ tail.length = hashTypeSize haveHashType ∧ IsDERBody body := by
  constructor
  · intro h
    have h9 : ¬ v.length < 9 := fun hlt => by simp [derReads, hlt] at h
    have h73 : ¬ v.length > 73 := fun hgt => by simp [derReads, hgt] at h
    refine ⟨by omega, ?_⟩
    obtain ⟨a0, a1, a2, a3, w, rfl, hshort | ⟨R, b0, b1, rest, hR, rfl⟩⟩ := exists_split
      (Nat.le_of_not_lt h9)
    · rw [derReads_of_short haveHashType hshort] at h
      cases h
    · obtain ⟨fOk, hrun, hiff⟩ := derReads_split hR (Nat.le_of_not_lt h9) (Nat.le_of_not_lt h73)
        haveHashType
      rw [hrun] at h
      obtain ⟨rfl, ha1, rfl, rfl, hrest, hRint, hSint⟩ := hiff.mp (some.inj h)
      have hS : (rest.take b1.toNat).length = b1.toNat := by
        rw [length_take]
        omega
      refine ⟨_, rest.drop b1.toNat, ?_, by rw [length_drop]; omega,
        R, rest.take b1.toNat, hRint, hSint, ?_, rfl⟩
      · rw [hS, ofNat_toNat_eq ha1, ofNat_toNat_eq hR.symm, ofNat_toNat_eq rfl]
        simp
      · rw [hS, ← ha1]
        exact a1.toNat_lt
  · rintro ⟨⟨h9, h73⟩, body, tail, rfl, htail, R, S, hR, hS, hfits, rfl⟩
    have hnat : ∀ n < 256, (UInt8.ofNat n).toNat = n := fun n hn => by
      rw [UInt8.toNat_ofNat']
      omega
    have hsplit : (0x30 :: UInt8.ofNat (4 + R.length + S.length) :: 0x02 :: UInt8.ofNat R.length ::
        (R ++ 0x02 :: UInt8.ofNat S.length :: S)) ++ tail = 0x30 ::
          UInt8.ofNat (4 + R.length + S.length) :: 0x02 :: UInt8.ofNat R.length ::
            (R ++ 0x02 :: UInt8.ofNat S.length :: (S ++ tail)) := by
      simp
    rw [hsplit] at h9 h73 ⊢
    obtain ⟨fOk, hrun, hiff⟩ := derReads_split (hnat R.length (by omega)).symm h9 h73 haveHashType
    rw [hrun, hiff.mpr]
    have hSnat := hnat S.length (by omega)
    rw [hSnat, hnat _ hfits, take_left]
    exact ⟨rfl, rfl, rfl, rfl, by rw [length_append, htail], hR, hS⟩

theorem getElem?_eq_getD {l : List UInt8} {i : ℕ} (h : i < l.length) :
    l[i]? = some (l.getD i 0) := by
  rw [getD_eq_getElem?_getD, getElem?_eq_getElem h]
  rfl

theorem derElementReads_eq_isDERElement {pos nLen : ℕ} (h2 : 2 ≤ pos)
    (hlen : pos + nLen ≤ v.length) :
    derElementReads v pos nLen = some (isDERElement v pos nLen) := by
  rcases Nat.eq_zero_or_pos v.length with hzero | hpos
  · omega
  rw [derElementReads, isDERElement, getElem?_eq_getD (show pos - 2 < v.length by omega)]
  simp only [bind_eq_bind, bind_some]
  split_ifs with htype hzero
  · rw [beq_eq_false_iff_ne.mpr htype]
    rfl
  · rw [hzero]
    simp
  · rw [getElem?_eq_getD (show pos < v.length by omega)]
    simp only [bind_some]
    generalize v.getD pos 0 = first
    rw [ne_eq, not_not] at htype
    split_ifs with hsign hpad
    · rw [beq_eq_false_iff_ne.mpr hsign]
      simp
    · rw [getElem?_eq_getD (show pos + 1 < v.length by omega)]
      rw [ne_eq, not_not] at hsign
      rw [htype, hsign, hpad.2, decide_eq_true hpad.1, bne_iff_ne.mpr hzero]
      rfl
    · rw [ne_eq, not_not] at hsign
      have hmore : (decide (nLen > 1) && first == 0) = false := by
        rw [Bool.eq_false_iff, ne_eq, Bool.and_eq_true, decide_eq_true_eq, beq_iff_eq]
        exact hpad
      rw [htype, hsign, hmore, bne_iff_ne.mpr hzero]
      rfl

/-- With the hash type, this is the check of the script machine. -/
theorem derReads_eq_isDERSignature (v : List UInt8) :
    derReads v true = some (isDERSignature v) := by
  rw [derReads, isDERSignature]
  by_cases h9 : v.length < 9
  · rw [if_pos h9, decide_eq_false (by omega)]
    rfl
  by_cases h73 : v.length > 73
  · rw [if_neg h9, if_pos h73, decide_eq_false (show ¬ v.length ≤ 73 by omega), Bool.and_false]
    rfl
  rw [if_neg h9, if_neg h73, decide_eq_true (show 9 ≤ v.length by omega),
    decide_eq_true (show v.length ≤ 73 by omega), getElem?_eq_getD (show 0 < v.length by omega),
    getElem?_eq_getD (show 1 < v.length by omega), getElem?_eq_getD (show 3 < v.length by omega)]
  simp only [Option.bind_eq_bind, Option.bind_some, Option.pure_def]
  rw [show (v.getD 3 0).toNat = sigLenR v from rfl]
  split_ifs with htype hmark hshort
  · rw [beq_eq_false_iff_ne.mpr htype]
    rfl
  · rw [beq_eq_false_iff_ne.mpr hmark, Bool.and_false]
    rfl
  · rw [decide_eq_false (by omega), Bool.and_false]
    rfl
  · rw [getElem?_eq_getD (by omega)]
    simp only [Option.bind_some]
    rw [show (v.getD (5 + sigLenR v) 0).toNat = sigLenS v from rfl]
    rw [ne_eq, not_not] at htype hmark
    rw [htype, hmark, decide_eq_true (by omega)]
    split_ifs with hsum
    · rw [beq_eq_false_iff_ne.mpr hsum, Bool.and_false]
      rfl
    · rw [derElementReads_eq_isDERElement (by omega) (by omega),
        derElementReads_eq_isDERElement (by omega) (by omega)]
      rw [ne_eq, not_not] at hsum
      rw [hsum]
      simp only [Option.bind_some, beq_self_eq_true, Bool.true_and]
      split_ifs with hR
      · rw [hR, Bool.true_and]
      · rw [Bool.eq_false_iff.mpr hR, Bool.false_and]

/-! ### With and without the hash type -/

theorem derReads_true_iff (v : List UInt8) : derReads v true = some true ↔ IsStrictDER v := by
  rw [derReads_iff, IsStrictDER, and_comm]
  refine and_congr_left fun _ => ⟨?_, ?_⟩
  · rintro ⟨body, tail, rfl, htail, hbody⟩
    obtain ⟨ht, rfl⟩ := length_eq_one_iff.mp htail
    exact ⟨body, ht, rfl, hbody⟩
  · rintro ⟨body, ht, rfl, hbody⟩
    exact ⟨body, [ht], rfl, rfl, hbody⟩

theorem derReads_false_iff (v : List UInt8) :
    derReads v false = some true ↔ (9 ≤ v.length ∧ v.length ≤ 73) ∧ IsDERBody v := by
  rw [derReads_iff]
  refine and_congr_right fun _ => ⟨?_, fun h => ⟨v, [], (append_nil v).symm, rfl, h⟩⟩
  rintro ⟨body, tail, rfl, htail, hbody⟩
  rw [length_eq_zero_iff.mp htail, append_nil]
  exact hbody

theorem derReads_concat_iff (v : List UInt8) (ht : UInt8) : derReads (v ++ [ht]) true = some true ↔
    (8 ≤ v.length ∧ v.length ≤ 72) ∧ IsDERBody v := by
  rw [derReads_true_iff, IsStrictDER, length_append, length_singleton]
  constructor
  · rintro ⟨⟨body, ht', heq, hbody⟩, h9, h73⟩
    obtain ⟨rfl, -⟩ := append_inj' heq rfl
    exact ⟨by omega, hbody⟩
  · rintro ⟨hlen, hbody⟩
    exact ⟨⟨v, ht, rfl, hbody⟩, by omega⟩

/-- **With the hash type, `IsDERSignature` accepts exactly strict DER**, and reads nothing outside
of the vector.  **Without it, it accepts what it accepts with any hash type behind it, unless this
is a signature of 8 or of 73 bytes**: the limits of the size are not lowered by the missing byte. -/
theorem isDERSignature_strict_iff (v : List UInt8) (ht : UInt8) :
    ((derReads v true = some true ↔ IsStrictDER v) ∧ derReads v true ≠ none ∧
        derReads v false ≠ none ∧
        (derReads v false = some true ↔ derReads (v ++ [ht]) true = some true)) ↔
      ¬ (IsDERBody v ∧ (v.length = 8 ∨ v.length = 73)) := by
  rw [derReads_false_iff, derReads_concat_iff]
  constructor
  · rintro ⟨-, -, -, hiff⟩ ⟨hbody, hlen | hlen⟩
    · have := (hiff.mpr ⟨by omega, hbody⟩).1
      omega
    · have := (hiff.mp ⟨by omega, hbody⟩).1
      omega
  · intro hnot
    refine ⟨derReads_true_iff v, derReads_ne_none v true, derReads_ne_none v false, ?_⟩
    refine and_congr_left fun hbody => ?_
    have h8 : v.length ≠ 8 := fun h => hnot ⟨hbody, .inl h⟩
    have h73 : v.length ≠ 73 := fun h => hnot ⟨hbody, .inr h⟩
    omega

/-- The shortest signature, `1` and `1`, is refused without a hash type and accepted with one. -/
theorem derReads_shortest :
    derReads [0x30, 0x06, 0x02, 0x01, 0x01, 0x02, 0x01, 0x01] false = some false ∧
      derReads ([0x30, 0x06, 0x02, 0x01, 0x01, 0x02, 0x01, 0x01] ++ [0x01]) true = some true ∧
      ¬ ∀ v ht, (derReads v false = some true ↔ derReads (v ++ [ht]) true = some true) := by
  refine ⟨by decide, by decide, fun h => ?_⟩
  have := (h [0x30, 0x06, 0x02, 0x01, 0x01, 0x02, 0x01, 0x01] 0x01).mpr (by decide)
  exact absurd this (by decide)

end Espers
