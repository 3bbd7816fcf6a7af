import Mathlib.Data.Nat.ModEq
import Mathlib.Tactic.Linarith
import Mathlib.Tactic.Positivity
import Mathlib.Tactic.Ring

/-!
# Reading what was written

Numbers and byte vectors as bytes.  A reader takes bytes from the front of its input and leaves the
rest; it is tied to its writer by an equivalence (`Reads`): it reads a value exactly if the input
begins with what the writer makes of the value.

* `reads_word` : words of a fixed number of bytes, least significant byte first.
* `reads_compactSize` : lengths of one, three, five or nine bytes, of which only the shortest form
  is read, and none above a limit.
* `reads_vector`, `reads_list` : byte vectors and lists behind their length.
* `Splits.readChunks_eq` : it makes no difference when at most so many values are read at a time.
* `reads_int` : words in two's complement.
* `drop_flatMap` : where the bytes of one value of a list are.
* `Delimits` : a writer whose values can be told apart, and from what follows them.
-/

namespace Wire

open List Option Prod Int Nat UInt8

/-- A reader of values. -/
abbrev Reader (α : Type*) := List UInt8 → Option (α × List UInt8)

/-- The reader reads the values with a property exactly from what the writer writes. -/
def Reads {α : Type*} (read : Reader α) (write : α → List UInt8) (P : α → Prop) : Prop :=
  ∀ b x r, read b = some (x, r) ↔ P x ∧ b = write x ++ r

theorem Reads.write_append {α : Type*} {read : Reader α} {write : α → List UInt8} {P : α → Prop}
    (h : Reads read write P) {x : α} (hx : P x) (r : List UInt8) :
    read (write x ++ r) = some (x, r) :=
  (h _ _ _).2 ⟨hx, rfl⟩

/-- A reader of codes reads the values that are coded. -/
theorem Reads.map {α β : Type*} {read : Reader α} {write : α → List UInt8} {P : α → Prop}
    {Q : β → Prop} {f : α → β} {g : β → α} (h : Reads read write P)
    (hf : ∀ x, P x → Q (f x) ∧ g (f x) = x) (hg : ∀ y, Q y → P (g y) ∧ f (g y) = y) :
    Reads (fun b => (read b).map fun x => (f x.1, x.2)) (fun y => write (g y)) Q := by
  intro b y r
  rw [map_eq_some_iff]
  constructor
  · rintro ⟨⟨x, r'⟩, hx, heq⟩
    obtain ⟨rfl, rfl⟩ := mk.injEq .. ▸ heq
    obtain ⟨hP, rfl⟩ := (h _ _ _).1 hx
    obtain ⟨hQ, hgf⟩ := hf x hP
    exact ⟨hQ, by simp only [hgf]⟩
  · rintro ⟨hQ, rfl⟩
    obtain ⟨hP, hfg⟩ := hg y hQ
    exact ⟨(g y, r), h.write_append hP r, by rw [hfg]⟩

/-! ### Words -/

/-- The number with the given bytes, least significant byte first. -/
def valueLE : List UInt8 → ℕ
  | [] => 0
  | b :: bs => b.toNat + 256 * valueLE bs

/-- The lowest `k` bytes of a number. -/
def bytesLE : ℕ → ℕ → List UInt8
  | 0, _ => []
  | k + 1, n => ofNat n :: bytesLE k (n / 256)

@[simp] theorem length_bytesLE (k n : ℕ) : (bytesLE k n).length = k := by
  induction k generalizing n with
  | zero => rfl
  | succ k ih => simp [bytesLE, ih]

theorem valueLE_lt (bs : List UInt8) : valueLE bs < 256 ^ bs.length := by
  induction bs with
  | nil => simp [valueLE]
  | cons b bs ih =>
    have hb := b.toNat_lt
    rw [valueLE, length_cons, pow_succ]
    omega

theorem valueLE_bytesLE {k n : ℕ} (h : n < 256 ^ k) : valueLE (bytesLE k n) = n := by
  induction k generalizing n with
  | zero =>
    rw [bytesLE, valueLE]
    omega
  | succ k ih =>
    have hlow : (UInt8.ofNat n).toNat = n % 256 := UInt8.toNat_ofNat'
    have hhigh : n / 256 < 256 ^ k := by
      omega
    rw [bytesLE, valueLE, ih hhigh, hlow]
    omega

theorem bytesLE_valueLE (bs : List UInt8) : bytesLE bs.length (valueLE bs) = bs := by
  induction bs with
  | nil => rfl
  | cons b bs ih =>
    have hb := b.toNat_lt
    have hlow : UInt8.ofNat (b.toNat + 256 * valueLE bs) = b := by
      apply UInt8.toNat_inj.1
      rw [UInt8.toNat_ofNat']
      omega
    have hhigh : (b.toNat + 256 * valueLE bs) / 256 = valueLE bs := by omega
    rw [length_cons, bytesLE, valueLE, hlow, hhigh, ih]

/-- `k` bytes. -/
def readBytes (k : ℕ) : Reader (List UInt8) := fun b =>
  if k ≤ b.length then some (b.take k, b.drop k) else none

theorem readBytes_eq_some {k : ℕ} {b x r : List UInt8} :
    readBytes k b = some (x, r) ↔ x.length = k ∧ b = x ++ r := by
  unfold readBytes
  constructor
  · intro h
    split at h
    · rename_i hk
      obtain ⟨rfl, rfl⟩ := mk.injEq .. ▸ some.inj h
      exact ⟨length_take_of_le hk, (take_append_drop k b).symm⟩
    · cases h
  · rintro ⟨rfl, rfl⟩
    simp

theorem reads_bytes (k : ℕ) : Reads (readBytes k) id (·.length = k) := fun _ _ _ =>
  readBytes_eq_some

/-- A word of `k` bytes. -/
def readWord (k : ℕ) : Reader ℕ := fun b => (readBytes k b).map fun x => (valueLE x.1, x.2)

theorem reads_word (k : ℕ) : Reads (readWord k) (bytesLE k) (· < 256 ^ k) := by
  refine (reads_bytes k).map (fun x hx => ?_) fun n hn => ⟨length_bytesLE k n, valueLE_bytesLE hn⟩
  rw [← hx]
  exact ⟨valueLE_lt x, bytesLE_valueLE x⟩

/-- The lowest `k` bytes of a number, most significant byte first. -/
def bytesBE (k n : ℕ) : List UInt8 := (bytesLE k n).reverse

/-- A word of `k` bytes, most significant byte first. -/
def readWordBE (k : ℕ) : Reader ℕ := fun b => (readBytes k b).map fun x =>
    (valueLE x.1.reverse, x.2)

theorem reads_wordBE (k : ℕ) : Reads (readWordBE k) (bytesBE k) (· < 256 ^ k) := by
  refine (reads_bytes k).map (f := fun x => valueLE x.reverse) (g := bytesBE k) (fun x hx => ?_)
    fun n hn => ⟨by simp [bytesBE], by rw [bytesBE, reverse_reverse, valueLE_bytesLE hn]⟩
  rw [bytesBE, ← hx, ← length_reverse, bytesLE_valueLE, reverse_reverse]
  exact ⟨valueLE_lt _, rfl⟩

/-- A word as a bit vector. -/
def readBits (w k : ℕ) : Reader (BitVec w) := fun b =>
  (readWord k b).map fun n => (BitVec.ofNat w n.1, n.2)

/-- The bytes of a bit vector. -/
def writeBits {w : ℕ} (k : ℕ) (x : BitVec w) : List UInt8 := bytesLE k x.toNat

theorem reads_bits {w k : ℕ} (h : 2 ^ w = 256 ^ k) :
    Reads (readBits w k) (writeBits k) (fun _ => True) := by
  refine (reads_word k).map (fun n hn => ⟨trivial, ?_⟩) fun x _ => ⟨h ▸ x.isLt, by simp⟩
  rw [BitVec.toNat_ofNat, h, mod_eq_of_lt hn]

/-! ### Lengths -/

/-- A length in its shortest form. -/
def writeCompactSize (n : ℕ) : List UInt8 :=
  if n < 253 then [ofNat n]
  else if n ≤ 0xFFFF then 253 :: bytesLE 2 n
  else if n ≤ 0xFFFFFFFF then 254 :: bytesLE 4 n
  else 255 :: bytesLE 8 n

/-- A length of at most `maxSize`; a form that is longer than necessary is refused. -/
def readCompactSize (maxSize : ℕ) : Reader ℕ := fun b =>
  match b with
  | [] => none
  | chSize :: b =>
    let size :=
      if chSize < 253 then some (chSize.toNat, b)
      else if chSize = 253 then (readWord 2 b).filter fun x => 253 ≤ x.1
      else if chSize = 254 then (readWord 4 b).filter fun x => 0x10000 ≤ x.1
      else (readWord 8 b).filter fun x => 0x100000000 ≤ x.1
    size.filter fun x => x.1 ≤ maxSize

/-- The four forms of a length, by the first byte. -/
theorem cons_eq_writeCompactSize {c : UInt8} {b r : List UInt8} {n : ℕ} :
    c :: b = writeCompactSize n ++ r ↔ (c < 253 ∧ n = c.toNat ∧ b = r) ∨
      (c = 253 ∧ 253 ≤ n ∧ n ≤ 0xFFFF ∧ b = bytesLE 2 n ++ r) ∨
      (c = 254 ∧ 0xFFFF < n ∧ n ≤ 0xFFFFFFFF ∧ b = bytesLE 4 n ++ r) ∨
      c = 255 ∧ 0xFFFFFFFF < n ∧ b = bytesLE 8 n ++ r := by
  unfold writeCompactSize
  split_ifs with h1 h2 h3
  · have hofNat : c = UInt8.ofNat n ↔ c < 253 ∧ n = c.toNat := by
      rw [← UInt8.toNat_inj, UInt8.toNat_ofNat', UInt8.lt_iff_toNat_lt]
      have h253' : (253 : UInt8).toNat = 253 := rfl
      omega
    rw [singleton_append, cons.injEq, hofNat, and_assoc]
    constructor
    · exact .inl
    · rintro (h | ⟨-, h, -⟩ | ⟨-, h, -⟩ | ⟨-, h, -⟩)
      · exact h
      all_goals omega
  · rw [cons_append, cons.injEq]
    constructor
    · rintro ⟨rfl, rfl⟩
      exact .inr (.inl ⟨rfl, by omega, h2, rfl⟩)
    · rintro (⟨hc, hn, -⟩ | ⟨rfl, -, -, rfl⟩ | ⟨-, h, -⟩ | ⟨-, h, -⟩)
      · rw [lt_iff_toNat_lt] at hc
        exact absurd (hn ▸ hc) h1
      · exact ⟨rfl, rfl⟩
      all_goals omega
  · rw [cons_append, cons.injEq]
    constructor
    · rintro ⟨rfl, rfl⟩
      exact .inr (.inr (.inl ⟨rfl, by omega, h3, rfl⟩))
    · rintro (⟨hc, hn, -⟩ | ⟨-, -, h, -⟩ | ⟨rfl, -, -, rfl⟩ | ⟨-, h, -⟩)
      · rw [lt_iff_toNat_lt] at hc
        exact absurd (hn ▸ hc) h1
      · omega
      · exact ⟨rfl, rfl⟩
      · omega
  · rw [cons_append, cons.injEq]
    constructor
    · rintro ⟨rfl, rfl⟩
      exact .inr (.inr (.inr ⟨rfl, by omega, rfl⟩))
    · rintro (⟨hc, hn, -⟩ | ⟨-, -, h, -⟩ | ⟨-, -, h, -⟩ | ⟨rfl, -, rfl⟩)
      · rw [lt_iff_toNat_lt] at hc
        exact absurd (hn ▸ hc) h1
      · omega
      · omega
      · exact ⟨rfl, rfl⟩

theorem readWord_filter {k low n : ℕ} {b r : List UInt8} :
    (readWord k b).filter (fun x => low ≤ x.1) = some (n, r) ↔
      low ≤ n ∧ n < 256 ^ k ∧ b = bytesLE k n ++ r := by
  rw [filter_eq_some_iff, reads_word k b n r]
  simp only [decide_eq_true_eq]
  tauto

theorem reads_compactSize {maxSize : ℕ} (hmax : maxSize < 256 ^ 8) :
    Reads (readCompactSize maxSize) writeCompactSize (· ≤ maxSize) := by
  intro b n r
  cases b with
  | nil =>
    unfold readCompactSize writeCompactSize
    split_ifs <;> simp
  | cons c b =>
    rw [cons_eq_writeCompactSize, readCompactSize, filter_eq_some_iff]
    have hc := c.toNat_lt
    by_cases h1 : c < 253
    · have h253 : c ≠ 253 := by rintro rfl; exact absurd h1 (by decide)
      have h254 : c ≠ 254 := by rintro rfl; exact absurd h1 (by decide)
      have h255 : c ≠ 255 := by rintro rfl; exact absurd h1 (by decide)
      simp only [h1, if_true, some.injEq, mk.injEq, decide_eq_true_eq, h253, h254, h255,
        false_and, or_false, true_and]
      constructor
      · rintro ⟨⟨rfl, rfl⟩, h⟩
        exact ⟨h, rfl, rfl⟩
      · rintro ⟨h, rfl, rfl⟩
        exact ⟨⟨rfl, rfl⟩, h⟩
    · by_cases h2 : c = 253
      · subst h2
        have h254 : (253 : UInt8) ≠ 254 := by decide
        have h255 : (253 : UInt8) ≠ 255 := by decide
        simp only [h1, if_false, if_true, readWord_filter, decide_eq_true_eq, h254, h255, false_and,
          or_false, false_or, true_and]
        constructor
        · rintro ⟨⟨hlow, hn, hb⟩, h⟩
          exact ⟨h, hlow, by omega, hb⟩
        · rintro ⟨h, hlow, hn, hb⟩
          exact ⟨⟨hlow, by omega, hb⟩, h⟩
      · by_cases h3 : c = 254
        · subst h3
          have h253 : (254 : UInt8) ≠ 253 := by decide
          have h255 : (254 : UInt8) ≠ 255 := by decide
          simp only [h1, if_false, if_true, readWord_filter, decide_eq_true_eq, h253,
            h255, false_and, or_false, false_or, true_and]
          constructor
          · rintro ⟨⟨hlow, hn, hb⟩, h⟩
            exact ⟨h, by omega, by omega, hb⟩
          · rintro ⟨h, hlow, hn, hb⟩
            exact ⟨⟨by omega, by omega, hb⟩, h⟩
        · have h4 : c = 255 := by
            rw [lt_iff_toNat_lt] at h1
            rw [← UInt8.toNat_inj] at h2 h3 ⊢
            have h253 : (253 : UInt8).toNat = 253 := rfl
            have h254 : (254 : UInt8).toNat = 254 := rfl
            have h255 : (255 : UInt8).toNat = 255 := rfl
            omega
          subst h4
          simp only [h1, h2, h3, if_false, readWord_filter, decide_eq_true_eq, false_and, false_or,
            true_and]
          constructor
          · rintro ⟨⟨hlow, hn, hb⟩, h⟩
            exact ⟨h, by omega, hb⟩
          · rintro ⟨h, hlow, hb⟩
            exact ⟨⟨by omega, by omega, hb⟩, h⟩

/-- A byte vector behind its length. -/
def writeVector (x : List UInt8) : List UInt8 := writeCompactSize x.length ++ x

/-- A byte vector of at most `maxSize` bytes. -/
def readVector (maxSize : ℕ) : Reader (List UInt8) := fun b =>
  (readCompactSize maxSize b).bind fun n => readBytes n.1 n.2

theorem reads_vector {maxSize : ℕ} (hmax : maxSize < 256 ^ 8) :
    Reads (readVector maxSize) writeVector (·.length ≤ maxSize) := by
  intro b x r
  unfold readVector writeVector
  rw [bind_eq_some_iff]
  constructor
  · rintro ⟨⟨n, b'⟩, hn, hx⟩
    obtain ⟨rfl, rfl⟩ := readBytes_eq_some.1 hx
    obtain ⟨hle, rfl⟩ := (reads_compactSize hmax _ _ _).1 hn
    exact ⟨hle, by simp⟩
  · rintro ⟨hle, rfl⟩
    exact ⟨(x.length, x ++ r), (reads_compactSize hmax _ _ _).2 ⟨hle, by simp⟩,
      readBytes_eq_some.2 ⟨rfl, rfl⟩⟩

/-! ### One reader after another -/

section Sequences

variable {α β : Type*} {read : Reader α} {write : α → List UInt8} {P : α → Prop}

theorem Reads.bind_eq_some (h : Reads read write P) {f : α × List UInt8 → Option β} {b : List UInt8}
    {y : β} : (read b).bind f = some y ↔ ∃ x r, P x ∧ b = write x ++ r ∧ f (x, r) = some y := by
  rw [bind_eq_some_iff]
  constructor
  · rintro ⟨⟨x, r⟩, hx, hf⟩
    obtain ⟨hP, hb⟩ := (h b x r).1 hx
    exact ⟨x, r, hP, hb, hf⟩
  · rintro ⟨x, r, hP, hb, hf⟩
    exact ⟨(x, r), (h b x r).2 ⟨hP, hb⟩, hf⟩

/-- `n` values one after the other. -/
def readMany (read : Reader α) : ℕ → Reader (List α)
  | 0, b => some ([], b)
  | n + 1, b => (read b).bind fun x => (readMany read n x.2).map fun xs => (x.1 :: xs.1, xs.2)

theorem reads_many (h : Reads read write P) (n : ℕ) :
    Reads (readMany read n) (·.flatMap write) (fun xs => xs.length = n ∧ ∀ x ∈ xs, P x) := by
  induction n with
  | zero =>
    intro b xs r
    simp only [readMany, some.injEq, mk.injEq]
    constructor
    · rintro ⟨rfl, rfl⟩
      simp
    · rintro ⟨⟨hlen, -⟩, rfl⟩
      obtain rfl := length_eq_zero_iff.mp hlen
      exact ⟨rfl, rfl⟩
  | succ n ih =>
    intro b xs r
    rw [readMany, h.bind_eq_some]
    simp only [map_eq_some_iff, mk.injEq]
    constructor
    · rintro ⟨x, r', hx, rfl, ⟨ys, r''⟩, hys, rfl, rfl⟩
      obtain ⟨⟨hlen, hall⟩, rfl⟩ := (ih _ _ _).1 hys
      refine ⟨⟨by rw [length_cons, hlen], ?_⟩, by rw [flatMap_cons, append_assoc]⟩
      rintro y (_ | ⟨_, hy⟩)
      · exact hx
      · exact hall y hy
    · rintro ⟨⟨hlen, hall⟩, rfl⟩
      cases xs with
      | nil => cases hlen
      | cons x xs =>
        refine ⟨x, xs.flatMap write ++ r,
          hall x (.head _), by rw [flatMap_cons, append_assoc], (xs, r),
          (ih _ _ _).2 ⟨⟨Nat.succ.inj hlen, fun y hy => hall y (.tail _ hy)⟩, rfl⟩, rfl, rfl⟩

/-- A reader of `n` values that reads at most `per` at a time; there is no result if it does not get
on. -/
def readChunks (readBlock : ℕ → Reader (List α)) (per : ℕ) : ℕ → ℕ → Reader (List α)
  | _, 0, b => some ([], b)
  | 0, _ + 1, _ => none
  | fuel + 1, n + 1, b => (readBlock (min per (n + 1)) b).bind fun xs =>
      (readChunks readBlock per fuel (n + 1 - min per (n + 1)) xs.2).map fun ys =>
        (xs.1 ++ ys.1, ys.2)

/-- Blocks can be read in parts. -/
def Splits (readBlock : ℕ → Reader (List α)) : Prop :=
  (∀ b, readBlock 0 b = some ([], b)) ∧
    ∀ m n b, readBlock (m + n) b = (readBlock m b).bind fun xs =>
      (readBlock n xs.2).map fun ys => (xs.1 ++ ys.1, ys.2)

/-- Reading at most `per` at a time makes no difference. -/
theorem Splits.readChunks_eq {readBlock : ℕ → Reader (List α)} (h : Splits readBlock) {per : ℕ}
    (hper : 0 < per) {fuel n : ℕ} (hfuel : n ≤ fuel) (b : List UInt8) :
    readChunks readBlock per fuel n b = readBlock n b := by
  induction fuel generalizing n b with
  | zero =>
    obtain rfl : n = 0 := by omega
    rw [readChunks, h.1]
  | succ fuel ih =>
    cases n with
    | zero => rw [readChunks, h.1]
    | succ n =>
      have hsum : n + 1 = min per (n + 1) + (n + 1 - min per (n + 1)) := by omega
      rw [readChunks]
      conv_rhs => rw [hsum, h.2]
      congr 1
      funext xs
      rw [ih (by omega)]

theorem splits_readMany (read : Reader α) : Splits (readMany read) := by
  refine ⟨fun b => rfl, fun m n b => ?_⟩
  induction m generalizing b with
  | zero =>
    rw [zero_add, readMany]
    cases h : readMany read n b <;> simp [h]
  | succ m ih =>
    rw [succ_add, readMany, readMany]
    cases read b with
    | none => rfl
    | some x =>
      simp only [bind_some, ih]
      cases readMany read m x.2 with
      | none => rfl
      | some xs => cases h : readMany read n xs.2 <;> simp [h]

theorem splits_readBytes : Splits readBytes := by
  refine ⟨fun b => by simp [readBytes], fun m n b => ?_⟩
  unfold readBytes
  by_cases hm : m ≤ b.length
  · rw [if_pos hm, bind_some]
    by_cases hn : m + n ≤ b.length
    · have hn' : n ≤ (b.drop m).length := by
        rw [length_drop]
        omega
      rw [if_pos hn, if_pos hn', map_some, take_add, drop_drop]
    · have hn' : ¬ n ≤ (b.drop m).length := by
        rw [length_drop]
        omega
      rw [if_neg hn, if_neg hn']
      rfl
  · rw [if_neg hm, if_neg (by omega)]
    rfl

/-- A list behind its length. -/
def writeList (write : α → List UInt8) (xs : List α) : List UInt8 :=
  writeCompactSize xs.length ++ xs.flatMap write

/-- A count of at most `maxSize`, and as many values. -/
theorem reads_counted {maxSize : ℕ} (hmax : maxSize < 256 ^ 8) (h : Reads read write P) :
    Reads (fun b => (readCompactSize maxSize b).bind fun n => readMany read n.1 n.2)
      (writeList write) (fun xs => xs.length ≤ maxSize ∧ ∀ x ∈ xs, P x) := by
  intro b xs r
  rw [(reads_compactSize hmax).bind_eq_some]
  simp only [reads_many h _ _ xs r]
  constructor
  · rintro ⟨n, r', hn, rfl, ⟨rfl, hall⟩, rfl⟩
    exact ⟨⟨hn, hall⟩, by rw [writeList, append_assoc]⟩
  · rintro ⟨⟨hn, hall⟩, rfl⟩
    exact ⟨xs.length, xs.flatMap write ++ r, hn, by rw [writeList, append_assoc], ⟨rfl, hall⟩, rfl⟩

/-- A list of at most `maxSize` values, at most `per` at a time. -/
def readList (maxSize per : ℕ) (read : Reader α) : Reader (List α) := fun b =>
  (readCompactSize maxSize b).bind fun n => readChunks (readMany read) per n.1 n.1 n.2

theorem reads_list {maxSize per : ℕ} (hmax : maxSize < 256 ^ 8) (hper : 0 < per)
    (h : Reads read write P) : Reads (readList maxSize per read) (writeList write)
      (fun xs => xs.length ≤ maxSize ∧ ∀ x ∈ xs, P x) := by
  unfold readList
  simp only [(splits_readMany read).readChunks_eq hper le_rfl]
  exact reads_counted hmax h

/-- A byte vector, at most `per` bytes at a time. -/
def readVectorChunks (maxSize per : ℕ) : Reader (List UInt8) := fun b =>
  (readCompactSize maxSize b).bind fun n => readChunks readBytes per n.1 n.1 n.2

theorem readVectorChunks_eq {maxSize per : ℕ} (hper : 0 < per) :
    readVectorChunks maxSize per = readVector maxSize := by
  funext b
  rw [readVectorChunks, readVector]
  simp only [splits_readBytes.readChunks_eq hper le_rfl]

end Sequences

/-! ### Signed words -/

/-- A word in two's complement. -/
def readInt (k : ℕ) : Reader ℤ := fun b =>
  (readWord k b).map fun n => (if 2 * n.1 < 256 ^ k then (n.1 : ℤ) else n.1 - 256 ^ k, n.2)

/-- The bytes of a number in two's complement. -/
def writeInt (k : ℕ) (z : ℤ) : List UInt8 := bytesLE k (z % 256 ^ k).toNat

theorem reads_int (k : ℕ) :
    Reads (readInt k) (writeInt k) (fun z => -256 ^ k ≤ 2 * z ∧ 2 * z < 256 ^ k) := by
  intro b z r
  have hpos : (0 : ℤ) < 256 ^ k := by positivity
  have hcast : ((256 ^ k : ℕ) : ℤ) = 256 ^ k := by norm_cast
  rw [readInt, map_eq_some_iff]
  constructor
  · rintro ⟨⟨n, r'⟩, hn, heq⟩
    obtain ⟨hlt, rfl⟩ := (reads_word k _ _ _).1 hn
    obtain ⟨hz, rfl⟩ := mk.injEq .. ▸ heq
    have hlt' : (n : ℤ) < 256 ^ k := by rw [← hcast]; exact_mod_cast hlt
    have hmod : z % 256 ^ k = n := by
      split_ifs at hz with h
      · rw [← hz, emod_eq_of_lt (by positivity) hlt']
      · rw [← hz, sub_emod_right, emod_eq_of_lt (by positivity) hlt']
    refine ⟨?_, by rw [writeInt, hmod, toNat_natCast]⟩
    split_ifs at hz with h
    · have h' : (2 * n : ℤ) < 256 ^ k := by rw [← hcast]; exact_mod_cast h
      constructor <;> linarith
    · have h' : (256 ^ k : ℤ) ≤ 2 * n := by rw [← hcast]; exact_mod_cast not_lt.mp h
      constructor <;> linarith
  · rintro ⟨⟨hlow, hhigh⟩, rfl⟩
    have hnn := emod_nonneg z hpos.ne'
    have hlt := emod_lt_of_pos z hpos
    have htoNat : ((z % 256 ^ k).toNat : ℤ) = z % 256 ^ k := toNat_of_nonneg hnn
    have hword : (z % 256 ^ k).toNat < 256 ^ k := by
      zify
      rw [htoNat]
      exact hlt
    refine ⟨((z % 256 ^ k).toNat, r), (reads_word k _ _ _).2 ⟨hword, rfl⟩, ?_⟩
    rcases le_or_gt 0 z with hz | hz
    · have hmod : z % 256 ^ k = z := emod_eq_of_lt hz (by linarith)
      rw [hmod] at htoNat ⊢
      rw [if_pos (by zify; rw [htoNat]; exact hhigh), htoNat]
    · have hmod : z % 256 ^ k = z + 256 ^ k := by
        rw [← add_emod_right, emod_eq_of_lt (by linarith) (by linarith)]
      rw [hmod] at htoNat ⊢
      rw [if_neg (by zify; rw [htoNat]; linarith), htoNat]
      ring_nf

theorem length_writeCompactSize (n : ℕ) : (writeCompactSize n).length =
    if n < 253 then 1 else if n ≤ 0xFFFF then 3 else if n ≤ 0xFFFFFFFF then 5 else 9 := by
  unfold writeCompactSize
  split_ifs <;> simp

theorem drop_flatMap {α : Type*} {write : α → List UInt8} (xs : List α) (r : List UInt8)
    {k : ℕ} (hk : k < xs.length) :
    (xs.flatMap write ++ r).drop ((xs.take k).map fun x => (write x).length).sum =
      write xs[k] ++ ((xs.drop (k + 1)).flatMap write ++ r) := by
  have hlen : ((xs.take k).flatMap write).length =
      ((xs.take k).map fun x => (write x).length).sum := length_flatMap
  have hsplit : xs.flatMap write =
      (xs.take k).flatMap write ++ (write xs[k] ++ (xs.drop (k + 1)).flatMap write) := by
    rw [← flatMap_cons, ← drop_eq_getElem_cons hk, ← flatMap_append, take_append_drop]
  rw [hsplit, append_assoc, append_assoc, drop_left' hlen]

/-! ### Telling values apart -/

section Delimits

variable {α : Type*} {read : Reader α} {write : α → List UInt8} {P : α → Prop}

/-- Where the bytes of a value end, and which value it is, can be told from the bytes. -/
def Delimits (write : α → List UInt8) (P : α → Prop) : Prop :=
  ∀ x y r r', P x → P y → write x ++ r = write y ++ r' → x = y ∧ r = r'

theorem Reads.delimits (h : Reads read write P) : Delimits write P := by
  intro x y r r' hx hy heq
  have hread := h.write_append hx r
  rw [heq, h.write_append hy r'] at hread
  obtain ⟨rfl, rfl⟩ := mk.injEq .. ▸ some.inj hread
  exact ⟨rfl, rfl⟩

theorem delimits_compactSize : Delimits writeCompactSize (· < 256 ^ 8) := by
  intro m n r r' hm hn heq
  have hmax : 256 ^ 8 - 1 < 256 ^ 8 := by norm_num
  exact (reads_compactSize hmax).delimits m n r r' (le_sub_one_of_lt hm)
    (le_sub_one_of_lt hn) heq

theorem delimits_vector : Delimits writeVector (·.length < 256 ^ 8) := by
  intro x y r r' hx hy heq
  rw [writeVector, writeVector, append_assoc, append_assoc] at heq
  obtain ⟨hlength, hbytes⟩ := delimits_compactSize _ _ _ _ hx hy heq
  exact append_inj hbytes hlength

theorem Delimits.flatMap (h : Delimits write P) {xs ys : List α} {r r' : List UInt8}
    (hlength : xs.length = ys.length) (hxs : ∀ x ∈ xs, P x) (hys : ∀ y ∈ ys, P y)
    (heq : xs.flatMap write ++ r = ys.flatMap write ++ r') : xs = ys ∧ r = r' := by
  induction xs generalizing ys with
  | nil =>
    obtain rfl := length_eq_zero_iff.1 hlength.symm
    exact ⟨rfl, heq⟩
  | cons x xs ih =>
    cases ys with
    | nil => cases hlength
    | cons y ys =>
      rw [flatMap_cons, flatMap_cons, append_assoc, append_assoc] at heq
      obtain ⟨rfl, htail⟩ := h x y _ _ (hxs x mem_cons_self) (hys y mem_cons_self) heq
      obtain ⟨rfl, rfl⟩ := ih (Nat.succ.inj hlength) (fun z hz => hxs z (.tail _ hz))
        (fun z hz => hys z (.tail _ hz)) htail
      exact ⟨rfl, rfl⟩

theorem Delimits.list (h : Delimits write P) :
    Delimits (writeList write) (fun xs => xs.length < 256 ^ 8 ∧ ∀ x ∈ xs, P x) := by
  rintro xs ys r r' ⟨hxs, hallx⟩ ⟨hys, hally⟩ heq
  rw [writeList, writeList, append_assoc, append_assoc] at heq
  obtain ⟨hlength, hbytes⟩ := delimits_compactSize _ _ _ _ hxs hys heq
  exact h.flatMap hlength hallx hally hbytes

end Delimits

end Wire
