import Espers.Retarget.Target
import Espers.Script.Encoding

/-!
# The compact form of a target

`CBigNum::GetCompact` and `CBigNum::SetCompact` at the level of the bytes that OpenSSL writes and
reads: the size of the number in four bytes, then its magnitude, highest byte first, with the sign
in the highest bit of the first byte.

* `toNat_getCompact`, `setCompact_eq` : the functions on bytes are the arithmetic ones.
* `compact_roundTrip` : **a target below 2²⁰³⁹ keeps its mantissa bytes and loses the others**, the
  compact form is stable, the round trip monotone, and a clamped target still in range.
-/

namespace Espers

open Exec List Nat UInt8

/-! ### The source -/

/-- `BN_bn2mpi`. -/
def bn2mpi (bn : ℤ) : List UInt8 :=
  let d := (bnGetvch bn).reverse
  let l := d.length
  ofNat (l >>> 24) :: ofNat (l >>> 16) :: ofNat (l >>> 8) :: ofNat l :: d

/-- `BN_mpi2bn`, with no result when the size is not that of the number. -/
def mpi2bn (d : List UInt8) : Option ℤ :=
  if 4 ≤ d.length ∧ ofBytes (d.take 4).reverse = d.length - 4 then
    some (bnSetvch (d.drop 4).reverse)
  else none

/-- `CBigNum::SetCompact`; `bn` is the number before, which stays when `BN_mpi2bn` fails. -/
def CBigNum.setCompact (bn : ℤ) (nCompact : UInt32) : ℤ :=
  let nSize := (nCompact >>> 24).toNat
  let vch := (replicate (4 + nSize) (0 : UInt8)).set 3 (ofNat nSize)
  let vch := if nSize ≥ 1 then vch.set 4 ((nCompact >>> 16) &&& 0xff).toUInt8 else vch
  let vch := if nSize ≥ 2 then vch.set 5 ((nCompact >>> 8) &&& 0xff).toUInt8 else vch
  let vch := if nSize ≥ 3 then vch.set 6 ((nCompact >>> 0) &&& 0xff).toUInt8 else vch
  (mpi2bn vch).getD bn

/-- `CBigNum::GetCompact`. -/
def CBigNum.getCompact (bn : ℤ) : UInt32 :=
  let vch := bn2mpi bn
  let nSize := vch.length - 4
  let nCompact := UInt32.ofNat nSize <<< 24
  let nCompact := if nSize ≥ 1 then nCompact ||| (vch.getD 4 0).toUInt32 <<< 16 else nCompact
  let nCompact := if nSize ≥ 2 then nCompact ||| (vch.getD 5 0).toUInt32 <<< 8 else nCompact
  if nSize ≥ 3 then nCompact ||| (vch.getD 6 0).toUInt32 <<< 0 else nCompact

/-- Four bytes in one number. -/
theorem toNat_pack (n : ℕ) (a b c : UInt8) :
    (UInt32.ofNat n <<< 24 ||| a.toUInt32 <<< 16 ||| b.toUInt32 <<< 8 ||| c.toUInt32 <<< 0).toNat =
      n % 256 * 2 ^ 24 + (a.toNat * 2 ^ 16 + (b.toNat * 2 ^ 8 + c.toNat)) := by
  have ha := a.toNat_lt
  have hb := b.toNat_lt
  have hc := c.toNat_lt
  have hn : (n % 2 ^ 32) <<< (24 % 32) % 2 ^ 32 = (n % 256) <<< 24 := by
    norm_num only [shiftLeft_eq]
    omega
  have hshift : ∀ (v : UInt8) (i : ℕ), i ≤ 16 → v.toNat <<< (i % 32) % 2 ^ 32 = v.toNat <<< i := by
    intro v i hi
    have hv := v.toNat_lt
    have hpow : 2 ^ i ≤ 2 ^ 16 := Nat.pow_le_pow_right (by norm_num) hi
    rw [mod_eq_of_lt (by omega : i < 32), shiftLeft_eq]
    exact mod_eq_of_lt (by nlinarith)
  simp only [UInt32.toNat_or, UInt32.toNat_shiftLeft, toNat_toUInt32, UInt32.toNat_ofNat',
    UInt32.reduceToNat]
  rw [hn, hshift a 16 le_rfl, hshift b 8 (by norm_num), hshift c 0 (by norm_num), Nat.or_assoc,
    Nat.or_assoc, Nat.shiftLeft_zero]
  rw [← shiftLeft_add_eq_or_of_lt hc, ← shiftLeft_add_eq_or_of_lt (i := 16),
    ← shiftLeft_add_eq_or_of_lt (i := 24)]
  · simp only [shiftLeft_eq]
  all_goals simp only [shiftLeft_eq]; omega

/-- The three mantissa bytes of `GetCompact`, zero where the number has none. -/
theorem toNat_getCompact_bytes (bn : ℤ) : (CBigNum.getCompact bn).toNat =
      (bnGetvch bn).length % 256 * 2 ^ 24 + (((bnGetvch bn).reverse.getD 0 0).toNat * 2 ^ 16 +
        (((bnGetvch bn).reverse.getD 1 0).toNat * 2 ^ 8 +
          ((bnGetvch bn).reverse.getD 2 0).toNat)) := by
  have hlen : (bn2mpi bn).length - 4 = (bnGetvch bn).length := by simp [bn2mpi]
  have hget : ∀ i, (bn2mpi bn).getD (4 + i) 0 = (bnGetvch bn).reverse.getD i 0 := fun i => by
    simp [bn2mpi, add_comm 4 i]
  -- a byte beyond the end is zero, so the tests on the size change nothing
  have hor : ∀ (c : UInt32) (i : ℕ) (k : UInt32),
      (if (bnGetvch bn).length ≥ i + 1 then c ||| ((bnGetvch bn).reverse.getD i 0).toUInt32 <<< k
        else c) = c ||| ((bnGetvch bn).reverse.getD i 0).toUInt32 <<< k := by
    intro c i k
    split_ifs with h
    · rfl
    · rw [getD_eq_getElem?_getD, getElem?_eq_none (by rw [length_reverse]; omega)]
      simp
  rw [← toNat_pack]
  unfold CBigNum.getCompact
  simp only [hlen, hget 0, hget 1, hget 2]
  rw [hor _ 0, hor _ 1, hor _ 2]

/-! ### Sizes -/

theorem ofBytes_append (lo hi : List UInt8) :
    ofBytes (lo ++ hi) = ofBytes lo + 256 ^ lo.length * ofBytes hi := by
  rw [ofBytes, map_append, ofDigits_append, length_map]
  rfl

theorem ofBytes_concat (lo : List UInt8) (top : UInt8) :
    ofBytes (lo ++ [top]) = ofBytes lo + 2 ^ (8 * lo.length) * top.toNat := by
  rw [ofBytes_append, pow_mul]
  norm_num [ofBytes]

variable {n : ℕ}

theorem lt_of_getvch (hn : n ≠ 0) : n < 2 ^ (8 * (getvch n).length - 1) := by
  have hne := getvch_ne_nil (pos_of_ne_zero hn)
  have htop := getLastD_getvch_lt n
  have hlo := ofBytes_lt (getvch n).dropLast
  have hlen : (getvch n).length = (getvch n).dropLast.length + 1 := by
    have := length_pos_iff.mpr hne
    rw [length_dropLast]
    omega
  have hval : n = ofBytes (getvch n).dropLast +
      2 ^ (8 * (getvch n).dropLast.length) * ((getvch n).getLastD 0).toNat := by
    rw [← ofBytes_concat, dropLast_append_getLastD hne, ofBytes_getvch]
  have hexp : 8 * ((getvch n).dropLast.length + 1) - 1 = 8 * (getvch n).dropLast.length + 7 := by
    omega
  rw [hlen, hexp, pow_add]
  rw [show (256 : ℕ) = 2 ^ 8 by rfl, ← pow_mul] at hlo
  nlinarith

/-- There is no byte more than the sign bit needs. -/
theorem le_of_getvch (hn : n ≠ 0) : 2 ^ (8 * ((getvch n).length - 1) - 1) ≤ n := by
  have hval := ofBytes_getvch n
  obtain ⟨bytes, hb⟩ : ∃ bytes, bytes = (digits 256 n).map ofNat := ⟨_, rfl⟩
  have hne : bytes ≠ [] := by
    rw [hb]
    exact map_eq_nil_iff.not.mpr (digits_ne_nil_iff_ne_zero.mpr hn)
  have hpos := length_pos_iff.mpr hne
  unfold getvch at hval ⊢
  rw [← hb] at hval ⊢
  simp only at hval ⊢
  split_ifs at hval ⊢ with h
  · -- a zero byte on top, and the bit of the sign is set below it
    have htop : 0x80 ≤ (bytes.getLastD 0).toNat := by
      rw [getLast?_eq_getLast_of_ne_nil hne] at h
      rw [getLastD_eq_getLast?, getLast?_eq_getLast_of_ne_nil hne]
      simpa using h
    rw [ofBytes_concat, ← dropLast_append_getLastD hne, ofBytes_concat] at hval
    have hpow : 2 ^ (8 * bytes.length - 1) = 2 ^ (8 * bytes.dropLast.length) * 2 ^ 7 := by
      rw [← pow_add, length_dropLast]
      congr 1
      omega
    rw [length_append, length_singleton, Nat.add_sub_cancel, hpow, ← hval]
    exact le_add_right_of_le (le_add_left_of_le (mul_le_mul_left _ htop))
  · -- the highest byte is not zero
    have hdig : 256 ^ bytes.length ≤ 256 * n := by
      rw [hb, length_map]
      exact base_pow_length_digits_le 256 n (by norm_num) hn
    obtain ⟨d, hd⟩ : ∃ d, bytes.length = d + 1 := ⟨bytes.length - 1, by omega⟩
    rw [hd, pow_succ] at hdig
    calc 2 ^ (8 * (bytes.length - 1) - 1) ≤ 2 ^ (8 * d) :=
          Nat.pow_le_pow_right (by norm_num) (by omega)
      _ = 256 ^ d := by rw [show 256 = 2 ^ 8 by rfl, ← pow_mul]
      _ ≤ n := by omega

/-- The bytes of the form of OpenSSL, which has room for a sign bit. -/
def mpiSize (n : ℕ) : ℕ := if n = 0 then 0 else (n.log2 + 1) / 8 + 1

theorem length_getvch (n : ℕ) : (getvch n).length = mpiSize n := by
  by_cases hn : n = 0
  · rw [hn, getvch_zero]
    rfl
  · rw [mpiSize, if_neg hn]
    have hlt := lt_of_getvch hn
    have hge := le_of_getvch hn
    have h1 : n.log2 < 8 * (getvch n).length - 1 := (log2_lt hn).mpr hlt
    have h2 : 8 * ((getvch n).length - 1) - 1 ≤ n.log2 := (le_log2 hn).mpr hge
    omega

/-! ### The functions on numbers -/

/-- The three highest bytes of a number, with zeros behind a short one. -/
theorem mantissa_eq (v : List UInt8) : (v.reverse.getD 0 0).toNat * 2 ^ 16 +
        ((v.reverse.getD 1 0).toNat * 2 ^ 8 + (v.reverse.getD 2 0).toNat) =
      if v.length ≤ 3 then ofBytes v * 256 ^ (3 - v.length)
      else ofBytes v / 256 ^ (v.length - 3) := by
  rcases hr : v.reverse with _ | ⟨a, _ | ⟨b, _ | ⟨c, rest⟩⟩⟩
  all_goals rw [reverse_eq_iff] at hr; subst hr
  · rfl
  · simp [ofBytes]
  · simp [ofBytes, ofDigits_cons]
    ring
  · have hlo := ofBytes_lt rest.reverse
    have hval : ofBytes (a :: b :: c :: rest).reverse =
        ofBytes rest.reverse + 256 ^ rest.reverse.length *
          (a.toNat * 2 ^ 16 + (b.toNat * 2 ^ 8 + c.toNat)) := by
      rw [reverse_cons, reverse_cons, reverse_cons, append_assoc, append_assoc, ofBytes_append]
      simp [ofBytes, ofDigits_cons]
      ring
    have hlen : (a :: b :: c :: rest).reverse.length = rest.reverse.length + 3 := by simp
    have hdiv : (ofBytes rest.reverse + 256 ^ rest.reverse.length *
        (a.toNat * 2 ^ 16 + (b.toNat * 2 ^ 8 + c.toNat))) / 256 ^ rest.reverse.length =
        a.toNat * 2 ^ 16 + (b.toNat * 2 ^ 8 + c.toNat) := by
      rw [add_mul_div_left _ _ (by positivity), div_eq_of_lt hlo, zero_add]
    rw [hval, hlen, Nat.add_sub_cancel, hdiv]
    split_ifs with hk
    · have hzero : rest.reverse.length = 0 := by omega
      rw [hzero] at hlo ⊢
      simp [lt_one_iff.mp hlo]
    · simp

theorem toNat_or_80 {b : UInt8} (h : b.toNat < 0x80) : (b ||| 0x80).toNat = b.toNat + 0x80 := by
  have hall : ∀ n < 0x80, (ofNat n ||| 0x80).toNat = n + 0x80 := by decide
  have hb := hall b.toNat h
  rwa [UInt8.ofNat_toNat] at hb

/-- The compact form on bytes is the arithmetic one. -/
theorem toNat_getCompact (bn : ℤ) : (CBigNum.getCompact bn).toNat = getCompact bn := by
  have hm := mantissa_eq (getvch bn.natAbs)
  rw [ofBytes_getvch, length_getvch] at hm
  have hsize : mpiSize bn.natAbs * 2 ^ 24 % 2 ^ 32 = mpiSize bn.natAbs % 256 * 2 ^ 24 :=
    mul_mod_mul_right (2 ^ 24) (mpiSize bn.natAbs) 256
  have hdef : getCompact bn = mpiSize bn.natAbs * 2 ^ 24 % 2 ^ 32 +
      (if mpiSize bn.natAbs ≤ 3 then bn.natAbs * 256 ^ (3 - mpiSize bn.natAbs)
        else bn.natAbs / 256 ^ (mpiSize bn.natAbs - 3)) + if bn < 0 then 2 ^ 23 else 0 := rfl
  rw [toNat_getCompact_bytes, hdef, hsize, ← hm]
  by_cases hneg : bn < 0
  · -- the sign goes into the highest byte, whose top bit is free
    have hne := getvch_ne_nil (n := bn.natAbs) (by omega)
    have htop := toNat_or_80 (getLastD_getvch_lt bn.natAbs)
    have hrev : (getvch bn.natAbs).reverse =
        (getvch bn.natAbs).getLastD 0 :: (getvch bn.natAbs).dropLast.reverse := by
      rw [← reverse_concat', dropLast_append_getLastD hne]
    have hset : (setSign (getvch bn.natAbs)).reverse =
        ((getvch bn.natAbs).getLastD 0 ||| 0x80) :: (getvch bn.natAbs).dropLast.reverse := by
      rw [setSign, reverse_concat']
    rw [bnGetvch, if_pos hneg, if_pos hneg, length_setSign hne, length_getvch, hset, hrev]
    simp only [getD_cons_zero, getD_cons_succ, htop]
    ring
  · rw [bnGetvch, if_neg hneg, if_neg hneg, length_getvch]
    ring

theorem mpi2bn_small {d : List UInt8} (h : d.length < 256) :
    mpi2bn (0 :: 0 :: 0 :: ofNat d.length :: d) = some (bnSetvch d.reverse) := by
  have hsize : ofBytes [ofNat d.length, 0, 0, 0] = d.length := by
    simp [ofBytes, ofDigits_cons, mod_eq_of_lt h]
  simp [mpi2bn, hsize]

theorem bnSetvch_concat (lo : List UInt8) (a : UInt8) : bnSetvch (lo ++ [a]) =
      if 2 ^ 7 ≤ a.toNat then -((ofBytes lo + 2 ^ (8 * lo.length) * (a.toNat % 2 ^ 7) : ℕ) : ℤ)
      else (ofBytes lo + 2 ^ (8 * lo.length) * (a.toNat % 2 ^ 7) : ℕ) := by
  have hand : (a &&& 0x7f).toNat = a.toNat % 2 ^ 7 := by
    exact and_two_pow_sub_one_eq_mod a.toNat 7
  rw [bnSetvch, getLastD_concat, dropLast_concat, ofBytes_concat, hand]
  rfl

/-- Reading the compact form on bytes is the arithmetic reading; nothing is left of the number
before. -/
theorem setCompact_eq (bn : ℤ) (nCompact : UInt32) :
    CBigNum.setCompact bn nCompact = setCompact nCompact.toNat := by
  have hsize : (nCompact >>> 24).toNat = nCompact.toNat / 2 ^ 24 := by
    simp [shiftRight_eq_div_pow]
  have hbyte : ∀ k : UInt32, ((nCompact >>> k) &&& 0xff).toUInt8.toNat =
      nCompact.toNat / 2 ^ (k.toNat % 32) % 256 := by
    intro k
    rw [UInt32.toNat_toUInt8, UInt32.toNat_and, UInt32.toNat_shiftRight, shiftRight_eq_div_pow]
    have hand := and_two_pow_sub_one_eq_mod (nCompact.toNat / 2 ^ (k.toNat % 32)) 8
    rw [show (0xff : UInt32).toNat = 2 ^ 8 - 1 by rfl, hand, mod_mod]
  have ha : ((nCompact >>> 16) &&& 0xff).toUInt8.toNat = nCompact.toNat / 2 ^ 16 % 256 := hbyte 16
  have hb : ((nCompact >>> 8) &&& 0xff).toUInt8.toNat = nCompact.toNat / 2 ^ 8 % 256 := hbyte 8
  have hc : ((nCompact >>> 0) &&& 0xff).toUInt8.toNat = nCompact.toNat / 2 ^ 0 % 256 := hbyte 0
  have hlt := nCompact.toNat_lt
  unfold CBigNum.setCompact setCompact
  rw [hsize]
  generalize ((nCompact >>> 16) &&& 0xff).toUInt8 = a at *
  generalize ((nCompact >>> 8) &&& 0xff).toUInt8 = b at *
  generalize ((nCompact >>> 0) &&& 0xff).toUInt8 = c at *
  generalize nCompact.toNat = n at *
  have hmantissa : n % 2 ^ 24 % 2 ^ 23 =
      a.toNat % 2 ^ 7 * 2 ^ 16 + (b.toNat * 2 ^ 8 + c.toNat) := by
    omega
  have hsign : 2 ^ 23 ≤ n % 2 ^ 24 ↔ 2 ^ 7 ≤ a.toNat := by omega
  have hs : n / 2 ^ 24 < 256 := by omega
  simp only [hsign, hmantissa, mod_eq_of_lt hs]
  generalize n / 2 ^ 24 = s at *
  -- the sign is the same, what remains is the magnitude, by the number of bytes
  have hfinish : ∀ (d lo : List UInt8) (m : ℕ), d.reverse = lo ++ [a] → d.length < 256 →
      ofBytes lo + 2 ^ (8 * lo.length) * (a.toNat % 2 ^ 7) = m →
      (mpi2bn (0 :: 0 :: 0 :: ofNat d.length :: d)).getD bn =
        if 2 ^ 7 ≤ a.toNat then -(m : ℤ) else m := by
    intro d lo m hd hlen hm
    rw [mpi2bn_small hlen, Option.getD_some, hd, bnSetvch_concat, hm]
  rcases s with _ | _ | _ | s
  · change (mpi2bn (0 :: 0 :: 0 :: ofNat ([] : List UInt8).length :: [])).getD bn = _
    have hzero : (a.toNat % 2 ^ 7 * 2 ^ 16 + (b.toNat * 2 ^ 8 + c.toNat)) / 256 ^ 3 = 0 := by omega
    rw [mpi2bn_small (by simp), if_pos (Nat.zero_le 3), Nat.sub_zero, hzero]
    simp [bnSetvch, ofBytes]
  · refine hfinish [a] [] _ rfl (by simp) ?_
    norm_num [ofBytes]
    omega
  · refine hfinish [a, b] [b] _ rfl (by simp) ?_
    norm_num [ofBytes]
    omega
  · have hvch : ((((replicate (4 + (s + 1 + 1 + 1)) (0 : UInt8)).set 3
        (ofNat (s + 1 + 1 + 1))).set 4 a).set 5 b).set 6 c =
        0 :: 0 :: 0 :: ofNat (a :: b :: c :: replicate s 0).length ::
          a :: b :: c :: replicate s 0 := by
      rw [show 4 + (s + 1 + 1 + 1) = s + 1 + 1 + 1 + 1 + 1 + 1 + 1 by omega]
      simp [replicate_succ]
    simp only [if_pos (show s + 1 + 1 + 1 ≥ 1 by omega), if_pos (show s + 1 + 1 + 1 ≥ 2 by omega), hvch]
    refine hfinish _ (replicate s 0 ++ [c, b]) _ (by simp) (by simp; omega) ?_
    have hzeros : ofBytes (replicate s 0) = 0 := by
      simp [ofBytes]
    have hshift : (if s + 1 + 1 + 1 ≤ 3 then
        (a.toNat % 2 ^ 7 * 2 ^ 16 + (b.toNat * 2 ^ 8 + c.toNat)) / 256 ^ (3 - (s + 1 + 1 + 1))
        else (a.toNat % 2 ^ 7 * 2 ^ 16 + (b.toNat * 2 ^ 8 + c.toNat)) * 256 ^ (s + 1 + 1 + 1 - 3)) =
        (a.toNat % 2 ^ 7 * 2 ^ 16 + (b.toNat * 2 ^ 8 + c.toNat)) * 256 ^ s := by
      split_ifs with h
      · obtain rfl : s = 0 := by omega
        simp
      · rfl
    have hpow : 2 ^ (8 * (s + 2)) = 256 ^ s * 2 ^ 16 := by
      rw [mul_add, pow_add, pow_mul]
      rfl
    rw [hshift, ofBytes_append, hzeros, length_append, length_replicate]
    simp only [ofBytes, map_cons, map_nil, ofDigits_cons, ofDigits_nil,
      length_cons, length_nil, hpow]
    ring

/-! ### The round trip -/

/-- The bytes of a number. -/
def byteLength (n : ℕ) : ℕ := (digits 256 n).length

/-- The bytes that the compact form has room for: one of the three is lost to a zero byte when the
highest bit of the highest byte is set. -/
def mantissaBytes (n : ℕ) : ℕ := if 0x80 ≤ (digits 256 n).getLastD 0 then 2 else 3

/-- The number with all but its most significant mantissa bytes cleared. -/
def keepMantissa (n : ℕ) : ℕ := n - n % 256 ^ (byteLength n - mantissaBytes n)

theorem mpiSize_sub (n : ℕ) : mpiSize n - 3 = byteLength n - mantissaBytes n := by
  have htop : ((digits 256 n).map ofNat).getLast?.any (fun b => decide (0x80 ≤ b.toNat)) =
      decide (0x80 ≤ (digits 256 n).getLastD 0) := by
    rw [getLast?_map, getLastD_eq_getLast?]
    cases h : (digits 256 n).getLast? with
    | none => rfl
    | some d =>
      have hd : d < 256 := digits_lt_base (by norm_num) (mem_of_getLast? h)
      simp [mod_eq_of_lt hd]
  rw [← length_getvch, getvch, byteLength, mantissaBytes, htop]
  by_cases h : 0x80 ≤ (digits 256 n).getLastD 0
  · rw [if_pos (by simpa using h), if_pos h]
    simp
  · rw [if_neg (by simpa using h), if_neg h]
    simp

theorem keepMantissa_eq (n : ℕ) :
    keepMantissa n = n / 256 ^ (mpiSize n - 3) * 256 ^ (mpiSize n - 3) := by
  rw [keepMantissa, mpiSize_sub]
  exact Nat.sub_eq_of_eq_add (Nat.div_add_mod' n _).symm

theorem mpiSize_bounds (hn : n ≠ 0) :
    1 ≤ mpiSize n ∧ n < 2 ^ (8 * mpiSize n - 1) ∧ 2 ^ (8 * (mpiSize n - 1) - 1) ≤ n := by
  have hlt := lt_of_getvch hn
  have hge := le_of_getvch hn
  rw [length_getvch] at hlt hge
  exact ⟨by rw [mpiSize, if_neg hn]; omega, hlt, hge⟩

theorem mpiSize_le_of_lt {n k e : ℕ} (h : n < 2 ^ e) (he : e ≤ 8 * k - 1) : mpiSize n ≤ k := by
  by_cases hn : n = 0
  · simp [mpiSize, hn]
  · obtain ⟨-, -, hge⟩ := mpiSize_bounds hn
    have := (Nat.pow_lt_pow_iff_right (by norm_num)).mp (hge.trans_lt h)
    omega

/-- The 23 bits of the mantissa. -/
def compactMantissa (n : ℕ) : ℕ :=
  if mpiSize n ≤ 3 then n * 256 ^ (3 - mpiSize n) else n / 256 ^ (mpiSize n - 3)

theorem compactMantissa_lt (n : ℕ) : compactMantissa n < 2 ^ 23 := by
  by_cases hn : n = 0
  · simp [compactMantissa, hn]
  · obtain ⟨hpos, hlt, -⟩ := mpiSize_bounds hn
    unfold compactMantissa
    generalize mpiSize n = s at *
    split_ifs with hs
    · calc n * 256 ^ (3 - s) < 2 ^ (8 * s - 1) * 256 ^ (3 - s) :=
            mul_lt_mul_of_pos_right hlt (by positivity)
        _ = 2 ^ 23 := by
          rw [show 256 = 2 ^ 8 by rfl, ← pow_mul, ← pow_add]
          congr 1
          omega
    · rw [div_lt_iff_lt_mul (by positivity), show 256 = 2 ^ 8 by rfl, ← pow_mul, ← pow_add]
      exact hlt.trans_eq (congrArg (2 ^ ·) (by omega))

theorem getCompact_natCast (h : mpiSize n < 256) :
    getCompact n = mpiSize n * 2 ^ 24 + compactMantissa n := by
  have hdef : getCompact n = mpiSize n * 2 ^ 24 % 2 ^ 32 + compactMantissa n + 0 := rfl
  rw [hdef, add_zero, mod_eq_of_lt (by omega)]

/-- **The round trip keeps the mantissa bytes.** -/
theorem setCompact_getCompact_natCast (h : mpiSize n < 256) :
    setCompact (getCompact n) = keepMantissa n := by
  have hm := compactMantissa_lt n
  have hsize : (mpiSize n * 2 ^ 24 + compactMantissa n) / 2 ^ 24 % 256 = mpiSize n := by omega
  have hword : (mpiSize n * 2 ^ 24 + compactMantissa n) % 2 ^ 24 = compactMantissa n := by omega
  rw [getCompact_natCast h, setCompact, hsize, hword, if_neg (by omega), mod_eq_of_lt hm,
    keepMantissa_eq, compactMantissa]
  split_ifs with hs
  · rw [Nat.mul_div_cancel _ (by positivity), Nat.sub_eq_zero_of_le hs]
    simp
  · rfl

theorem setCompact_getCompact_of_size (h : mpiSize n = 256) : setCompact (getCompact n) = 0 := by
  have hm := compactMantissa_lt n
  have hdef : getCompact n = mpiSize n * 2 ^ 24 % 2 ^ 32 + compactMantissa n + 0 := rfl
  have hsize : compactMantissa n / 2 ^ 24 % 256 = 0 := by omega
  have hword : compactMantissa n % 2 ^ 24 = compactMantissa n := by omega
  have hzero : compactMantissa n % 2 ^ 23 / 256 ^ (3 - 0) = 0 := by omega
  rw [hdef, h, show 256 * 2 ^ 24 % 2 ^ 32 = 0 by rfl, zero_add, add_zero, setCompact, hsize,
    hword, if_neg (by omega), if_pos (zero_le 3), hzero]
  rfl

theorem keepMantissa_le (n : ℕ) : keepMantissa n ≤ n := sub_le _ _

theorem pow_le_keepMantissa (hn : n ≠ 0) : 2 ^ (8 * (mpiSize n - 1) - 1) ≤ keepMantissa n := by
  obtain ⟨-, -, hge⟩ := mpiSize_bounds hn
  have hdvd : 256 ^ (mpiSize n - 3) ∣ 2 ^ (8 * (mpiSize n - 1) - 1) := by
    rw [show 256 = 2 ^ 8 by rfl, ← pow_mul]
    exact pow_dvd_pow 2 (by omega)
  rw [keepMantissa_eq]
  calc 2 ^ (8 * (mpiSize n - 1) - 1)
      = 2 ^ (8 * (mpiSize n - 1) - 1) / 256 ^ (mpiSize n - 3) * 256 ^ (mpiSize n - 3) :=
        (Nat.div_mul_cancel hdvd).symm
    _ ≤ n / 256 ^ (mpiSize n - 3) * 256 ^ (mpiSize n - 3) :=
        Nat.mul_le_mul_right _ (Nat.div_le_div_right hge)

theorem keepMantissa_pos (hn : n ≠ 0) : 0 < keepMantissa n :=
  (Nat.two_pow_pos _).trans_le (pow_le_keepMantissa hn)

theorem mpiSize_mono {m n : ℕ} (h : m ≤ n) : mpiSize m ≤ mpiSize n := by
  by_cases hn : n = 0
  · obtain rfl : m = n := by omega
    exact le_rfl
  · exact mpiSize_le_of_lt (h.trans_lt (mpiSize_bounds hn).2.1) le_rfl

theorem mpiSize_keepMantissa (n : ℕ) : mpiSize (keepMantissa n) = mpiSize n := by
  by_cases hn : n = 0
  · rw [hn, keepMantissa, Nat.zero_sub]
  · obtain ⟨hpos, -, -⟩ := mpiSize_bounds hn
    obtain ⟨hpos', hlt', -⟩ := mpiSize_bounds (keepMantissa_pos hn).ne'
    have hexp := (Nat.pow_lt_pow_iff_right (by norm_num)).mp
      ((pow_le_keepMantissa hn).trans_lt hlt')
    exact le_antisymm (mpiSize_mono (keepMantissa_le n)) (by omega)

theorem compactMantissa_keepMantissa (n : ℕ) :
    compactMantissa (keepMantissa n) = compactMantissa n := by
  rw [compactMantissa, compactMantissa, mpiSize_keepMantissa, keepMantissa_eq]
  split_ifs with hs
  · rw [Nat.sub_eq_zero_of_le hs]
    simp
  · rw [Nat.mul_div_cancel _ (by positivity)]

theorem keepMantissa_mono {m n : ℕ} (h : m ≤ n) : keepMantissa m ≤ keepMantissa n := by
  rcases (mpiSize_mono h).eq_or_lt with hs | hs
  · rw [keepMantissa_eq, keepMantissa_eq, hs]
    exact Nat.mul_le_mul_right _ (Nat.div_le_div_right h)
  · -- the larger number keeps its highest bit, which the smaller one has not
    have hn : n ≠ 0 := fun hn => by simp [mpiSize, hn] at hs
    by_cases hm : m = 0
    · simp [hm, keepMantissa]
    · calc keepMantissa m ≤ m := keepMantissa_le m
        _ ≤ 2 ^ (8 * mpiSize m - 1) := (mpiSize_bounds hm).2.1.le
        _ ≤ 2 ^ (8 * (mpiSize n - 1) - 1) := Nat.pow_le_pow_right (by norm_num) (by omega)
        _ ≤ keepMantissa n := pow_le_keepMantissa hn

/-! ### The functions on bytes -/

theorem mpiSize_lt {x : ℕ} (hx : x < 2 ^ 2039) : mpiSize x < 256 :=
  lt_succ_of_le (mpiSize_le_of_lt hx (by norm_num))

theorem compact_eq_keepMantissa (old : ℤ) {x : ℕ} (hx : x < 2 ^ 2039) :
    CBigNum.setCompact old (CBigNum.getCompact x) = keepMantissa x := by
  rw [setCompact_eq, toNat_getCompact]
  exact setCompact_getCompact_natCast (mpiSize_lt hx)

/-- **The compact form of a target**: below 2²⁰³⁹ a number keeps its mantissa bytes and loses the
others, its compact form does not change any more, the round trip is monotone, and a target that is
clamped to the limit stays in the range that `CheckProofOfWork` asks for. -/
theorem compact_roundTrip (old : ℤ) : (∀ x : ℕ, x < 2 ^ 2039 →
      CBigNum.setCompact old (CBigNum.getCompact x) = keepMantissa x ∧ keepMantissa x ≤ x ∧
      CBigNum.getCompact (CBigNum.setCompact old (CBigNum.getCompact x)) = CBigNum.getCompact x) ∧
    (∀ x y : ℕ, x ≤ y → y < 2 ^ 2039 → CBigNum.setCompact old (CBigNum.getCompact x) ≤
        CBigNum.setCompact old (CBigNum.getCompact y)) ∧
    ∀ (E : Env) (hash : Uint256) (bnNew : ℤ), 0 < bnNew → 0 < E.proofOfWorkLimit →
      E.proofOfWorkLimit < 2 ^ 2039 →
      checkProofOfWork E hash (CBigNum.getCompact
        (if bnNew > E.proofOfWorkLimit then E.proofOfWorkLimit else bnNew)).toNat ≠
        .error (.error "CheckProofOfWork() : nBits below minimum work") := by
  refine ⟨fun x hx => ?_, fun x y hxy hy => ?_, fun E hash bnNew hnew hpos hlimit => ?_⟩
  · have hsize := mpiSize_lt hx
    refine ⟨compact_eq_keepMantissa old hx, keepMantissa_le x, UInt32.toNat_inj.mp ?_⟩
    rw [compact_eq_keepMantissa old hx, toNat_getCompact, toNat_getCompact,
      getCompact_natCast hsize, getCompact_natCast (by rwa [mpiSize_keepMantissa]),
      mpiSize_keepMantissa, compactMantissa_keepMantissa]
  · rw [compact_eq_keepMantissa old (hxy.trans_lt hy), compact_eq_keepMantissa old hy]
    exact_mod_cast keepMantissa_mono hxy
  · obtain ⟨x, hx⟩ : ∃ x : ℕ, (x : ℤ) =
        if bnNew > E.proofOfWorkLimit then E.proofOfWorkLimit else bnNew :=
      ⟨_, Int.toNat_of_nonneg (by split_ifs <;> omega)⟩
    have hx0 : x ≠ 0 := by rintro rfl; split_ifs at hx <;> omega
    have hxl : (x : ℤ) ≤ E.proofOfWorkLimit := by split_ifs at hx <;> omega
    have hround := compact_eq_keepMantissa 0 (x := x) (by exact_mod_cast hxl.trans_lt hlimit)
    rw [setCompact_eq] at hround
    have hrange : ¬((keepMantissa x : ℤ) ≤ 0 ∨ (keepMantissa x : ℤ) > E.proofOfWorkLimit) := by
      have hle : (keepMantissa x : ℤ) ≤ x := by exact_mod_cast keepMantissa_le x
      have hkeep : (0 : ℤ) < keepMantissa x := by exact_mod_cast keepMantissa_pos hx0
      exact not_or.mpr ⟨not_le.mpr hkeep, not_lt.mpr (hle.trans hxl)⟩
    rw [← hx, checkProofOfWork, hround, rejectIf_of_not hrange]
    simp only [rejectIf]
    split_ifs <;> simp [except_ok_bind]

/-- The limit of the regression test network is such a target. -/
theorem compact_roundTrip_regtest :
    CBigNum.setCompact 0 (CBigNum.getCompact (2 ^ 255 - 1 : ℕ)) = keepMantissa (2 ^ 255 - 1) :=
  ((compact_roundTrip 0).1 (2 ^ 255 - 1)
    ((sub_le (2 ^ 255) 1).trans_lt (pow_lt_pow_right₀ one_lt_two (by norm_num)))).1

/-- The round trip loses a number of 255 bytes whose highest bit is set. -/
theorem compact_roundTrip_overflows : ¬∀ x : ℕ, byteLength x ≤ 255 →
      CBigNum.setCompact 0 (CBigNum.getCompact x) = keepMantissa x := by
  intro h
  obtain ⟨e, he⟩ : ∃ e, e = 2039 := ⟨_, rfl⟩
  have hlen : byteLength (2 ^ e) ≤ 255 := by
    refine (digits_length_le_iff (by norm_num) _).mpr ?_
    rw [show 256 = 2 ^ 8 by rfl, ← pow_mul]
    exact pow_lt_pow_right₀ one_lt_two (by omega)
  have hle : mpiSize (2 ^ e) ≤ 256 :=
    mpiSize_le_of_lt (Nat.pow_lt_pow_right (by norm_num) (Nat.lt_succ_self e)) (by omega)
  have hge : e < 8 * mpiSize (2 ^ e) - 1 :=
    (Nat.pow_lt_pow_iff_right (by norm_num)).mp (mpiSize_bounds (Nat.two_pow_pos e).ne').2.1
  have hround := h (2 ^ e) hlen
  rw [setCompact_eq, toNat_getCompact, setCompact_getCompact_of_size (by omega)] at hround
  have hkeep := keepMantissa_pos (Nat.two_pow_pos e).ne'
  exact hkeep.ne (by exact_mod_cast hround)

end Espers
