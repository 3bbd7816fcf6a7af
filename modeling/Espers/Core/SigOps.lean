import Espers.Core.Script
import Espers.Core.Transaction

/-!
# Counting signature operations

`getSigOpCount` is `CScript::GetSigOpCount(bool)` and `getLegacySigOpCount` the count of a whole
transaction.  The counts are `unsigned int` in the source; a script has at most twenty operations
for each of its bytes, so the sums do not overflow.

* `getSigOpCount_pushInt` : a pushed number counts for nothing.
* `getSigOpCount_codes` : a script without pushes counts for the sum of its opcodes.
-/

namespace Espers

open List UInt8

/-! ### Reading opcodes -/

/-- The length of the data that the opcode pushes, and what follows the length. -/
def pushLength (op : UInt8) (s : CScript) : Option (ℕ × CScript) :=
  if op.toNat < 0x4c then some (op.toNat, s)
  else
    let k := if op.toNat = 0x4c then 1 else if op.toNat = 0x4d then 2 else 4
    if s.length < k then none else some (ofBytes (s.take k), s.drop k)

/-- `CScript::GetOp`: the next opcode, the data it pushes, and the rest of the script. -/
def getOp : CScript → Option (UInt8 × List UInt8 × CScript)
  | [] => none
  | op :: s =>
    if op.toNat ≤ 0x4e then
      (pushLength op s).bind fun r =>
        if r.2.length < r.1 then none else some (op, r.2.take r.1, r.2.drop r.1)
    else some (op, [], s)

/-- The first instruction of a script. -/
theorem getOp_cases {script pc : CScript} {opcode : UInt8} {vch : List UInt8}
    (h : getOp script = some (opcode, vch, pc)) : ∃ s, script = opcode :: s ∧
      ((opcode.toNat ≤ 0x4e ∧ ∃ n rest, pushLength opcode s = some (n, rest) ∧ n ≤ rest.length ∧
          vch = rest.take n ∧ pc = rest.drop n) ∨
        (0x4e < opcode.toNat ∧ vch = [] ∧ pc = s)) := by
  cases script with
  | nil => cases h
  | cons op s =>
    rw [getOp] at h
    split_ifs at h with hpush
    · obtain ⟨⟨n, rest⟩, hlen, hrest⟩ := Option.bind_eq_some_iff.mp h
      split_ifs at hrest with hshort
      cases hrest
      exact ⟨s, rfl, .inl ⟨hpush, n, rest, hlen, not_lt.mp hshort, rfl, rfl⟩⟩
    · cases h
      exact ⟨_, rfl, .inr ⟨not_le.mp hpush, rfl, rfl⟩⟩

/-- An instruction is the rest of the script, its data and five bytes at most. -/
theorem getOp_split {script pc : CScript} {opcode : UInt8} {vch : List UInt8}
    (h : getOp script = some (opcode, vch, pc)) :
    ∃ head, script = head ++ pc ∧ 0 < head.length ∧ head.length ≤ vch.length + 5 := by
  obtain ⟨s, rfl, ⟨-, n, rest, hlen, hshort, rfl, rfl⟩ | ⟨-, rfl, rfl⟩⟩ := getOp_cases h
  · have hsuffix : ∃ pre, s = pre ++ rest ∧ pre.length ≤ 4 := by
      unfold pushLength at hlen
      simp only at hlen
      split_ifs at hlen <;> cases hlen
      · exact ⟨[], rfl, by simp⟩
      all_goals exact ⟨s.take _, (take_append_drop _ _).symm, (length_take_le _ _).trans (by simp)⟩
    obtain ⟨pre, rfl, hpre⟩ := hsuffix
    refine ⟨opcode :: (pre ++ rest.take n), ?_, Nat.succ_pos _, ?_⟩
    · rw [cons_append, append_assoc, take_append_drop]
    · simp only [length_cons, length_append]
      omega
  · exact ⟨[opcode], rfl, Nat.one_pos, by simp⟩

/-- Every instruction takes a byte at least. -/
theorem length_of_getOp {script pc : CScript} {opcode : UInt8} {vch : List UInt8}
    (h : getOp script = some (opcode, vch, pc)) : pc.length < script.length := by
  obtain ⟨head, rfl, hpos, -⟩ := getOp_split h
  rw [length_append]
  omega

/-- An opcode without data. -/
theorem data_eq_nil {script pc : CScript} {opcode : UInt8} {vch : List UInt8}
    (h : getOp script = some (opcode, vch, pc)) (hop : opcode = 0 ∨ 0x4e < opcode.toNat) :
    vch = [] := by
  obtain ⟨s, rfl, ⟨hle, n, rest, hlen, -, rfl, rfl⟩ | ⟨-, rfl, rfl⟩⟩ := getOp_cases h
  · rcases hop with rfl | hop
    · cases hlen
      rfl
    · omega
  · rfl

/-- What one opcode adds to the count; the key count in front of `OP_CHECKMULTISIG` is taken only by
the accurate count. -/
def sigOpWeight (fAccurate : Bool) (lastOpcode opcode : UInt8) : ℕ :=
  if opcode.toNat = 0xac ∨ opcode.toNat = 0xad then 1
  else if opcode.toNat = 0xae ∨ opcode.toNat = 0xaf then
    if fAccurate ∧ 0x51 ≤ lastOpcode.toNat ∧ lastOpcode.toNat ≤ 0x60 then lastOpcode.toNat - 0x50
    else 20
  else 0

/-- The loop of `GetSigOpCount`, which stops at an opcode it cannot read. -/
def sigOpLoop (fAccurate : Bool) : ℕ → UInt8 → CScript → ℕ
  | 0, _, _ => 0
  | fuel + 1, lastOpcode, s =>
    match getOp s with
    | none => 0
    | some (opcode, _, s) =>
      sigOpWeight fAccurate lastOpcode opcode + sigOpLoop fAccurate fuel opcode s

/-- `CScript::GetSigOpCount(fAccurate)`; every opcode takes a byte at least. -/
def getSigOpCount (fAccurate : Bool) (s : CScript) : ℕ := sigOpLoop fAccurate s.length 0xff s

/-- `CScript::IsPayToScriptHash`. -/
def isPayToScriptHash (s : CScript) : Bool :=
  s.length == 23 && s.getD 0 0 == 0xa9 && s.getD 1 0 == 0x14 && s.getD 22 0 == 0x87

/-- The last item that a script of pushes puts on the stack. -/
def lastPush : ℕ → List UInt8 → CScript → Option (List UInt8)
  | _, data, [] => some data
  | 0, _, _ => none
  | fuel + 1, _, s =>
    match getOp s with
    | none => none
    | some (opcode, data, s) => if 0x60 < opcode.toNat then none else lastPush fuel data s

/-- `CScript::GetSigOpCount(scriptSig)`: the operations of the script a hash stands for. -/
def getScriptSigOpCount (scriptPubKey scriptSig : CScript) : ℕ :=
  if !isPayToScriptHash scriptPubKey then getSigOpCount true scriptPubKey
  else
    match lastPush scriptSig.length [] scriptSig with
    | none => 0
    | some data => getSigOpCount true data

/-- `GetLegacySigOpCount`. -/
def getLegacySigOpCount (tx : CTransaction) : ℕ :=
  (tx.vin.map fun txin => getSigOpCount false txin.scriptSig).sum +
    (tx.vout.map fun txout => getSigOpCount false txout.scriptPubKey).sum

/-! ### Scripts of known count -/

theorem getSigOpCount_nil (fAccurate : Bool) : getSigOpCount fAccurate [] = 0 := rfl

theorem sigOpLoop_code (fAccurate : Bool) (fuel : ℕ) (last : UInt8) {op : UInt8} (s : CScript)
    (hop : 0x4e < op.toNat) :
    sigOpLoop fAccurate (fuel + 1) last (op :: s) =
      sigOpWeight fAccurate last op + sigOpLoop fAccurate fuel op s := by
  rw [sigOpLoop, getOp, if_neg (by omega)]

theorem sigOpLoop_push (fAccurate : Bool) (fuel : ℕ) (last : UInt8) {b : List UInt8} (s : CScript)
    (hb : b.length < 0x4c) :
    sigOpLoop fAccurate (fuel + 1) last (ofNat b.length :: (b ++ s)) =
      sigOpLoop fAccurate fuel (ofNat b.length) s := by
  have hnat : (ofNat b.length).toNat = b.length := by
    rw [toNat_ofNat']
    omega
  have hget : getOp (ofNat b.length :: (b ++ s)) = some (ofNat b.length, b, s) := by
    rw [getOp, if_pos (by omega), pushLength, hnat, if_pos hb]
    simp
  have hweight : sigOpWeight fAccurate last (ofNat b.length) = 0 := by
    rw [sigOpWeight, hnat, if_neg (by omega), if_neg (by omega)]
  rw [sigOpLoop, hget]
  simp only [hweight, zero_add]

theorem sigOpLoop_codes {fuel : ℕ} {s : CScript} (last : UInt8) (hlen : s.length ≤ fuel)
    (hs : ∀ op ∈ s, 0x4e < op.toNat) :
    sigOpLoop false fuel last s = (s.map (sigOpWeight false last)).sum := by
  induction s generalizing fuel last with
  | nil => cases fuel <;> simp [sigOpLoop, getOp]
  | cons op s ih =>
    obtain ⟨fuel, rfl⟩ : ∃ n, fuel = n + 1 := ⟨fuel - 1, by simp at hlen; omega⟩
    -- the count that is not accurate does not look at the opcode before
    have hlast : sigOpWeight false op = sigOpWeight false last := by
      funext x
      simp [sigOpWeight]
    rw [sigOpLoop_code _ _ _ _ (hs op mem_cons_self),
      ih op (by simpa using hlen) fun x hx => hs x (mem_cons_of_mem _ hx), hlast,
      map_cons, sum_cons]

theorem getSigOpCount_codes {s : CScript} (hs : ∀ op ∈ s, 0x4e < op.toNat) :
    getSigOpCount false s = (s.map (sigOpWeight false 0xff)).sum :=
  sigOpLoop_codes 0xff le_rfl hs

theorem getSigOpCount_pushData {b : List UInt8} (hb : b.length < 0x4c) :
    getSigOpCount false (pushData b) = 0 := by
  have hpush := sigOpLoop_push false b.length 0xff [] hb
  rw [append_nil] at hpush
  rw [pushData, if_pos hb, getSigOpCount, length_cons, hpush]
  cases b.length <;> rfl

theorem length_getvch_le {n : ℕ} (h : n < 2 ^ 31) : (getvch n).length ≤ 5 := by
  have hdig : (Nat.digits 256 n).length ≤ 4 := by
    rw [Nat.digits_length_le_iff (by norm_num)]
    omega
  unfold getvch
  simp only
  split_ifs <;> simp <;> omega

theorem length_pushInt_le {n : ℕ} (h : n < 2 ^ 31) : (pushInt n).length ≤ 6 := by
  have := length_getvch_le h
  unfold pushInt
  split_ifs
  · simp
  · rw [pushData, if_pos (by omega), length_cons]
    omega

theorem getSigOpCount_pushInt {n : ℕ} (h : n < 2 ^ 31) : getSigOpCount false (pushInt n) = 0 := by
  have := length_getvch_le h
  by_cases hn : 1 ≤ n ∧ n ≤ 16
  · have hnat : (ofNat (n + 0x50)).toNat = n + 0x50 := by
      rw [toNat_ofNat']
      omega
    rw [pushInt, if_pos hn, getSigOpCount_codes (by simp; omega)]
    simp only [map_cons, map_nil, sum_cons, sum_nil, add_zero, sigOpWeight]
    rw [if_neg (by omega), if_neg (by omega)]
  · rw [pushInt, if_neg hn]
    exact getSigOpCount_pushData (by omega)

end Espers
