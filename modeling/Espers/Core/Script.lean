import Espers.Core.Data
import Mathlib.Data.Nat.Digits.Lemmas

/-!
# Numbers in scripts

The part of `CScript::operator<<` that pushes an integer, as `AcceptBlock` uses it to write the
height of a block at the start of its coinbase.

* `pushedInt_eq` : the number can be read back from any script that starts with the push, so a
  script starts with one height at most (`pushInt_prefix_unique`).
-/

namespace Espers

open List UInt8

/-- `MAX_SCRIPT_ELEMENT_SIZE`. -/
def maxScriptElementSize : ℕ := 520

/-- `CBigNum::getvch` of a non-negative number: its bytes, lowest first, with a zero byte on top
when the highest bit would read as a sign. -/
def getvch (n : ℕ) : List UInt8 :=
  let bytes := (Nat.digits 256 n).map ofNat
  if (bytes.getLast?.any fun b => decide (0x80 ≤ b.toNat)) then bytes ++ [0] else bytes

/-- `CScript() << b`, for a vector of bytes. -/
def pushData (b : List UInt8) : CScript :=
  if b.length < 0x4c then ofNat b.length :: b
  else if b.length ≤ 0xff then 0x4c :: ofNat b.length :: b
  else if b.length ≤ 0xffff then
    0x4d :: ofNat (b.length % 256) :: ofNat (b.length / 256) :: b
  else
    0x4e :: ofNat (b.length % 256) :: ofNat (b.length / 256 % 256) ::
      ofNat (b.length / 65536 % 256) :: ofNat (b.length / 16777216 % 256) :: b

/-- `CScript() << n`, for a non-negative integer. -/
def pushInt (n : ℕ) : CScript :=
  if 1 ≤ n ∧ n ≤ 16 then [ofNat (n + 0x50)] else pushData (getvch n)

/-! ### Reading a pushed number back -/

/-- The number whose bytes are given, lowest first. -/
def ofBytes (b : List UInt8) : ℕ := Nat.ofDigits 256 (b.map toNat)

/-- The number pushed at the start of a script, for pushes of fewer than 256 bytes. -/
def pushedInt : CScript → ℕ
  | [] => 0
  | op :: s =>
    if 0x51 ≤ op.toNat then op.toNat - 0x50
    else if op.toNat < 0x4c then ofBytes (s.take op.toNat)
    else ofBytes ((s.drop 1).take ((s.headD 0).toNat))

theorem ofBytes_getvch (n : ℕ) : ofBytes (getvch n) = n := by
  have hdig : ∀ d ∈ Nat.digits 256 n, d < 256 := fun d hd => Nat.digits_lt_base (by norm_num) hd
  have hmap : ((Nat.digits 256 n).map ofNat).map toNat = Nat.digits 256 n := by
    rw [map_map]
    conv_rhs => rw [← map_id (Nat.digits 256 n)]
    refine map_congr_left fun d hd => ?_
    exact Nat.mod_eq_of_lt (hdig d hd)
  unfold ofBytes getvch
  simp only
  split_ifs
  · rw [map_append, hmap, Nat.ofDigits_append, Nat.ofDigits_digits]
    simp
  · rw [hmap, Nat.ofDigits_digits]

/-- A number pushed in at most 100 bytes is read back from any script that starts with the push. -/
theorem pushedInt_eq {n : ℕ} {s : CScript} (h : pushInt n <+: s) (hs : s.length ≤ 100) :
    pushedInt s = n := by
  obtain ⟨rest, rfl⟩ := h
  unfold pushInt at hs ⊢
  split_ifs at hs ⊢ with hn
  · have : (ofNat (n + 0x50)).toNat = n + 0x50 := by
      rw [toNat_ofNat']; omega
    simp only [singleton_append, pushedInt]
    rw [if_pos (by omega)]
    omega
  · have hlen : (getvch n).length ≤ 100 := by
      have : (getvch n).length ≤ (pushData (getvch n)).length := by
        unfold pushData
        split_ifs <;> simp only [length_cons] <;> omega
      rw [length_append] at hs
      omega
    have hnat : (ofNat (getvch n).length).toNat = (getvch n).length := by
      rw [toNat_ofNat']; omega
    unfold pushData
    split_ifs with h1 h2
    · simp only [cons_append, pushedInt, hnat]
      rw [if_neg (by omega), if_pos h1, take_left', ofBytes_getvch]
      rfl
    · simp only [cons_append, pushedInt]
      rw [if_neg (by decide), if_neg (by decide)]
      simp only [drop_one, tail_cons, headD_cons, hnat]
      rw [take_left', ofBytes_getvch]
      rfl
    · omega
    · omega

theorem pushInt_prefix_unique {a b : ℕ} {s : CScript} (ha : pushInt a <+: s) (hb : pushInt b <+: s)
    (hs : s.length ≤ 100) : a = b :=
  (pushedInt_eq ha hs).symm.trans (pushedInt_eq hb hs)

end Espers
