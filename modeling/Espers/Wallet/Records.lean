import Espers.Chain.ReorgSettings
import Espers.Core.Codec
import Espers.Wallet.Sync
import Mathlib.Data.List.TakeWhile
import Std.Data.ExtTreeMap

/-!
# The records of wallet transactions and accounting entries

Some fields of a `CWalletTx` are put into its `mapValue` as texts before that is written, and erased
afterwards; a `CAccountingEntry` writes its `mapValue` behind a NUL in its comment.

* `reads_mapValue` : a map is read from what it was written to.
* `atoi64_i64tostr` : the texts of numbers.
* `walletRecords_roundTrip` : **records are read as they were written, and writing them leaves them
  as they were**.
-/

namespace Espers

open Wire List Nat

/-! ### Texts -/

/-- The bytes of a text of ASCII characters. -/
def textBytes (text : List Char) : List UInt8 := text.map fun c => UInt8.ofNat c.toNat

/-- Bytes as characters. -/
def charsOf (b : List UInt8) : List Char := b.map fun c => Char.ofNat c.toNat

/-- `i64tostr`. -/
def i64tostr (n : ℤ) : List UInt8 :=
  textBytes (if n < 0 then '-' :: toDigits 10 n.natAbs else toDigits 10 n.natAbs)

/-- `atoi64`; what does not fit becomes the nearest number that does. -/
def atoi64 (text : List UInt8) : ℤ :=
  let n : ℤ :=
    match (charsOf text).dropWhile isSpace with
    | '-' :: rest => -(leadingDigits rest : ℤ)
    | '+' :: rest => leadingDigits rest
    | rest => leadingDigits rest
  max (-2 ^ 63) (min (2 ^ 63 - 1) n)

variable {text : List Char}

theorem charsOf_textBytes (h : ∀ c ∈ text, c.toNat < 256) : charsOf (textBytes text) = text := by
  rw [charsOf, textBytes, map_map]
  refine (map_congr_left fun c hc => ?_).trans (map_id text)
  rw [Function.comp_apply, UInt8.toNat_ofNat', mod_eq_of_lt (h c hc), Char.ofNat_toNat]
  rfl

theorem toNat_of_isDigit {c : Char} (h : c.isDigit = true) : 48 ≤ c.toNat ∧ c.toNat ≤ 57 := by
  rw [Char.isDigit, Bool.and_eq_true, decide_eq_true_eq, decide_eq_true_eq] at h
  exact ⟨h.1, h.2⟩

theorem isDigit_of_toDigits {n : ℕ} {c : Char} (h : c ∈ toDigits 10 n) : c.isDigit = true :=
  isDigit_of_mem_toDigits (by decide) le_rfl h

theorem leadingDigits_of_digits (h : ∀ c ∈ text, c.isDigit = true) :
    leadingDigits text = ofDigitChars 10 text 0 := by
  rw [leadingDigits, takeWhile_eq_self_iff.2 h]
  rfl

theorem leadingDigits_toDigits (n : ℕ) : leadingDigits (toDigits 10 n) = n := by
  rw [leadingDigits_of_digits fun c hc => isDigit_of_toDigits hc, ofDigitChars_ten_toDigits]

theorem isSpace_of_isDigit {c : Char} (h : c.isDigit = true) : isSpace c = false := by
  have hc := toNat_of_isDigit h
  rw [isSpace, Bool.or_eq_false_iff, Bool.and_eq_false_iff, decide_eq_false_iff_not,
    decide_eq_false_iff_not, decide_eq_false_iff_not]
  refine ⟨?_, .inr (by omega)⟩
  rintro rfl
  exact absurd hc.1 (by decide)

/-- A text of digits is read as the number. -/
theorem atoi64_of_digits (h : ∀ c ∈ text, c.isDigit = true)
    (hlt : ofDigitChars 10 text 0 < 2 ^ 63) :
    atoi64 (textBytes text) = ofDigitChars 10 text 0 := by
  have hchars : charsOf (textBytes text) = text :=
    charsOf_textBytes fun c hc => by
      have hdigit := toNat_of_isDigit (h c hc)
      omega
  have hvalue := leadingDigits_of_digits h
  rw [atoi64, hchars]
  cases text with
  | nil => rfl
  | cons c cs =>
    have hdigit := h c mem_cons_self
    have hc := toNat_of_isDigit hdigit
    have hspace := isSpace_of_isDigit hdigit
    rw [dropWhile_cons_of_neg (by rw [hspace]; exact Bool.false_ne_true)]
    have hminus : c ≠ '-' := by
      rintro rfl
      exact absurd hc.1 (by decide)
    have hplus : c ≠ '+' := by
      rintro rfl
      exact absurd hc.1 (by decide)
    split
    · rename_i heq
      exact absurd (cons.inj heq).1 hminus
    · rename_i heq
      exact absurd (cons.inj heq).1 hplus
    · rw [hvalue]
      omega

theorem atoi64_digits {n : ℕ} (h : n < 2 ^ 63) : atoi64 (textBytes (toDigits 10 n)) = n := by
  rw [atoi64_of_digits fun c hc => isDigit_of_toDigits hc, ofDigitChars_ten_toDigits]
  rwa [ofDigitChars_ten_toDigits]

/-- Every `int64_t` is read as it was written. -/
theorem atoi64_i64tostr {n : ℤ} (h : -2 ^ 63 ≤ n) (h' : n < 2 ^ 63) : atoi64 (i64tostr n) = n := by
  rw [i64tostr]
  split_ifs with hneg
  · have hchars : charsOf (textBytes ('-' :: toDigits 10 n.natAbs)) =
        '-' :: toDigits 10 n.natAbs := by
      refine charsOf_textBytes fun c hc => ?_
      rcases mem_cons.1 hc with rfl | hc
      · decide
      · have hdigit := toNat_of_isDigit (isDigit_of_toDigits hc)
        omega
    have hspace : ('-' :: toDigits 10 n.natAbs).dropWhile isSpace =
        '-' :: toDigits 10 n.natAbs := dropWhile_cons_of_neg (by decide)
    rw [atoi64, hchars, hspace]
    change max (-2 ^ 63) (min (2 ^ 63 - 1) (-(leadingDigits (toDigits 10 n.natAbs) : ℤ))) = n
    rw [leadingDigits_toDigits]
    omega
  · rw [atoi64_digits (by omega)]
    omega

/-! ### Maps of texts -/

/-- `mapValue_t`. -/
abbrev MapValue := Std.ExtTreeMap (List UInt8) (List UInt8)

/-- The serialization of a pair of texts. -/
def writePair (e : List UInt8 × List UInt8) : List UInt8 := writeVector e.1 ++ writeVector e.2

/-- A pair of texts is read one after the other. -/
def readPair : Reader (List UInt8 × List UInt8) := fun b => do
  let (first, b) ← readVector maxSize b
  let (second, b) ← readVector maxSize b
  return ((first, second), b)

/-- The serialization of a map: its entries by their keys. -/
def writeMapValue (m : MapValue) : List UInt8 := writeList writePair m.toList

/-- The entries of a map are inserted one after the other; the first of a key stays. -/
def readMapValue : Reader MapValue := fun b => do
  let (nSize, b) ← readCompactSize maxSize b
  let (items, b) ← readMany readPair nSize b
  return (items.foldl (fun m e => m.insertIfNew e.1 e.2) ∅, b)

/-- A pair of texts is not too long. -/
def PairBounded (e : List UInt8 × List UInt8) : Prop :=
  e.1.length ≤ maxSize ∧ e.2.length ≤ maxSize

/-- Neither a map nor its texts are too long. -/
def MapBounded (m : MapValue) : Prop := m.toList.length ≤ maxSize ∧ ∀ e ∈ m.toList, PairBounded e

theorem reads_pair : Wire.Reads readPair writePair PairBounded := by
  intro b e r
  have hvector := reads_vector (show maxSize < 256 ^ 8 by decide)
  simp only [readPair, Option.bind_eq_bind, hvector.bind_eq_some, Option.pure_def,
    Option.some.injEq, Prod.mk.injEq]
  constructor
  · rintro ⟨first, b1, hfirst, rfl, second, b2, hsecond, rfl, rfl, rfl⟩
    exact ⟨⟨hfirst, hsecond⟩, by rw [writePair, append_assoc]⟩
  · rintro ⟨⟨hfirst, hsecond⟩, rfl⟩
    exact ⟨e.1, _, hfirst, by rw [writePair, append_assoc], e.2, r, hsecond, rfl, rfl, rfl⟩

theorem getElem?_foldl_insertIfNew {l : List (List UInt8 × List UInt8)} {m : MapValue}
    (hl : l.Pairwise fun e e' => e.1 ≠ e'.1) (hm : ∀ e ∈ l, e.1 ∉ m) (k : List UInt8)
    (v : List UInt8) : (l.foldl (fun m e => m.insertIfNew e.1 e.2) m)[k]? = some v ↔
      m[k]? = some v ∨ (k, v) ∈ l := by
  induction l generalizing m with
  | nil => simp
  | cons e l ih =>
    obtain ⟨hhead, htail⟩ := pairwise_cons.1 hl
    have hnew := hm e mem_cons_self
    have hrest : ∀ e' ∈ l, e'.1 ∉ m.insertIfNew e.1 e.2 := by
      intro e' he' hmem
      rw [Std.ExtTreeMap.mem_insertIfNew, Std.LawfulEqCmp.compare_eq_iff_eq] at hmem
      exact hmem.elim (hhead e' he') (hm e' (.tail _ he'))
    have hget : (m.insertIfNew e.1 e.2)[k]? = some v ↔ m[k]? = some v ∨ (k, v) = e := by
      rw [Std.ExtTreeMap.getElem?_insertIfNew]
      split_ifs with heq
      · obtain rfl := Std.LawfulEqCmp.compare_eq_iff_eq.1 heq.1
        rw [Std.ExtTreeMap.getElem?_eq_none hnew, Option.some.injEq]
        constructor
        · rintro rfl
          exact .inr rfl
        · rintro (h | h)
          · cases h
          · exact (congrArg Prod.snd h).symm
      · refine (or_iff_left ?_).symm
        rintro rfl
        exact heq ⟨Std.LawfulEqCmp.compare_eq_iff_eq.2 rfl, hnew⟩
    rw [foldl_cons, ih htail hrest, hget, mem_cons, or_assoc]

theorem foldl_insertIfNew_toList (m : MapValue) :
    m.toList.foldl (fun m e => m.insertIfNew e.1 e.2) ∅ = m := by
  have hdistinct : m.toList.Pairwise fun e e' => e.1 ≠ e'.1 :=
    m.distinct_keys_toList.imp fun hne heq => hne (Std.LawfulEqCmp.compare_eq_iff_eq.2 heq)
  refine Std.ExtTreeMap.ext_getElem? fun k => Option.ext fun v => ?_
  rw [getElem?_foldl_insertIfNew hdistinct (fun e _ => Std.ExtTreeMap.not_mem_empty) k v,
    Std.ExtTreeMap.getElem?_empty, Std.ExtTreeMap.mem_toList_iff_getElem?_eq_some]
  exact or_iff_right fun h => by cases h

theorem readMapValue_append {m : MapValue} (h : MapBounded m) (r : List UInt8) :
    readMapValue (writeMapValue m ++ r) = some (m, r) := by
  have hsize := (reads_compactSize (show maxSize < 256 ^ 8 by decide)).write_append h.1
  have hitems := (reads_many reads_pair m.toList.length).write_append ⟨rfl, h.2⟩ r
  rw [writeMapValue, writeList, append_assoc, readMapValue]
  simp only [Option.bind_eq_bind, hsize, Option.bind_some, hitems, foldl_insertIfNew_toList,
    Option.pure_def]

theorem getElem?_insert_mapValue (m : MapValue) (k k' v : List UInt8) :
    (m.insert k v)[k']? = if k = k' then some v else m[k']? := by
  rw [Std.ExtTreeMap.getElem?_insert]
  exact if_congr Std.LawfulEqCmp.compare_eq_iff_eq rfl rfl

theorem getElem?_erase_mapValue (m : MapValue) (k k' : List UInt8) :
    (m.erase k)[k']? = if k = k' then none else m[k']? := by
  rw [Std.ExtTreeMap.getElem?_erase]
  exact if_congr Std.LawfulEqCmp.compare_eq_iff_eq rfl rfl

theorem getElem?_foldl_erase (keys : List (List UInt8)) (m : MapValue) (k : List UInt8) :
    (keys.foldl (fun m k => m.erase k) m)[k]? = if k ∈ keys then none else m[k]? := by
  induction keys generalizing m with
  | nil => rw [foldl_nil, if_neg not_mem_nil]
  | cons key keys ih =>
    rw [foldl_cons, ih, getElem?_erase_mapValue]
    by_cases hmem : k ∈ keys
    · rw [if_pos hmem, if_pos (mem_cons_of_mem _ hmem)]
    · rw [if_neg hmem]
      by_cases heq : key = k
      · rw [if_pos heq, if_pos (heq ▸ mem_cons_self)]
      · rw [if_neg heq, if_neg fun h => (mem_cons.1 h).elim (fun h => heq h.symm) hmem]

/-- The key of `nOrderPos`. -/
def keyN : List UInt8 := textBytes ['n']

/-- `WriteOrderPos`. -/
def writeOrderPosValue (nOrderPos : ℤ) (mapValue : MapValue) : MapValue :=
  if nOrderPos = -1 then mapValue else mapValue.insert keyN (i64tostr nOrderPos)

/-- `ReadOrderPos`. -/
def readOrderPosValue (mapValue : MapValue) : ℤ :=
  match mapValue[keyN]? with
  | none => -1
  | some text => atoi64 text

theorem getElem?_writeOrderPosValue {k : List UInt8} (h : k ≠ keyN) (nOrderPos : ℤ)
    (m : MapValue) : (writeOrderPosValue nOrderPos m)[k]? = m[k]? := by
  rw [writeOrderPosValue]
  split_ifs
  · rfl
  · rw [getElem?_insert_mapValue, if_neg h.symm]

theorem readOrderPosValue_eq {nOrderPos : ℤ} (h : -2 ^ 63 ≤ nOrderPos) (h' : nOrderPos < 2 ^ 63)
    {m m' : MapValue} (hm : m[keyN]? = none)
    (hm' : m'[keyN]? = (writeOrderPosValue nOrderPos m)[keyN]?) :
    readOrderPosValue m' = nOrderPos := by
  rw [readOrderPosValue, hm', writeOrderPosValue]
  split_ifs with hnone
  · rw [hm, hnone]
  · rw [getElem?_insert_mapValue, if_pos rfl]
    exact atoi64_i64tostr h h'

/-! ### Transactions of the wallet -/

/-- `CMerkleTx`. -/
structure CMerkleTx extends CTransaction where
  hashBlock : Uint256
  vMerkleBranch : List Uint256
  nIndex : ℤ

/-- All that is kept of a `CWalletTx`. -/
structure WalletTxRecord extends CWalletTx where
  vtxPrev : List CMerkleTx
  mapValue : MapValue
  vOrderForm : List (List UInt8 × List UInt8)
  fTimeReceivedIsTxTime : ℕ
  nTimeReceived : ℕ
  nTimeSmart : ℕ
  strFromAccount : List UInt8
  nOrderPos : ℤ

/-- `sizeof` of the elements of vectors. -/
structure WalletSizeof extends Sizeof where
  merkleTx : ℕ
  pair : ℕ
  merkleTx_fits : 0 < 5000000 / merkleTx
  pair_fits : 0 < 5000000 / pair

/-- The serialization of a transaction with its branch. -/
def CMerkleTx.serialize (m : CMerkleTx) : List UInt8 :=
  m.toCTransaction.serialize ++ (writeBits 32 m.hashBlock ++
    (writeList (writeBits 32) m.vMerkleBranch ++ writeInt 4 m.nIndex))

/-- A transaction with its branch is read field by field. -/
def CMerkleTx.unserialize (S : Sizeof) : Reader CMerkleTx := fun b => do
  let (tx, b) ← CTransaction.unserialize S b
  let (hashBlock, b) ← readBits 256 32 b
  let (vMerkleBranch, b) ← readList maxSize (5000000 / 32) (readBits 256 32) b
  let (nIndex, b) ← readInt 4 b
  return (⟨tx, hashBlock, vMerkleBranch, nIndex⟩, b)

/-- A flag as a `char`. -/
def charOfBool (f : Bool) : ℕ := if f then 1 else 0

namespace WalletTxRecord

/-- `"fromaccount"`. -/
def keyFromAccount : List UInt8 := textBytes ['f', 'r', 'o', 'm', 'a', 'c', 'c', 'o', 'u', 'n', 't']

/-- `"version"`. -/
def keyVersion : List UInt8 := textBytes ['v', 'e', 'r', 's', 'i', 'o', 'n']

/-- `"spent"`. -/
def keySpent : List UInt8 := textBytes ['s', 'p', 'e', 'n', 't']

/-- `"timesmart"`. -/
def keyTimeSmart : List UInt8 := textBytes ['t', 'i', 'm', 'e', 's', 'm', 'a', 'r', 't']

/-- The keys that are erased. -/
def reservedKeys : List (List UInt8) :=
  [keyFromAccount, keyVersion, keySpent, keyN, keyTimeSmart]

/-- The transaction with its branch. -/
def toCMerkleTx (w : WalletTxRecord) : CMerkleTx :=
  ⟨w.toCTransaction, w.hashBlock, w.vMerkleBranch, w.nIndex⟩

/-- The texts of the flags of the outputs. -/
def spentText (w : WalletTxRecord) : List UInt8 := textBytes (w.vfSpent.map fun f =>
  if f then '1' else '0')

/-- What is put into `mapValue` before it is written. -/
def filled (w : WalletTxRecord) : MapValue :=
  let mapValue := w.mapValue.insert keyFromAccount w.strFromAccount
  let mapValue := mapValue.insert keySpent w.spentText
  let mapValue := writeOrderPosValue w.nOrderPos mapValue
  if w.nTimeSmart ≠ 0 then mapValue.insert keyTimeSmart (textBytes (toDigits 10 w.nTimeSmart))
  else mapValue

/-- The reserved keys are erased. -/
def erased (w : WalletTxRecord) : WalletTxRecord :=
  { w with mapValue := reservedKeys.foldl (fun m k => m.erase k) w.mapValue }

/-- What is written, and the object afterwards. -/
def serialize (w : WalletTxRecord) : List UInt8 × WalletTxRecord :=
  let fSpent := w.vfSpent.any id
  let w := { w with mapValue := w.filled }
  (w.toCMerkleTx.serialize ++ (writeList CMerkleTx.serialize w.vtxPrev ++
    (writeMapValue w.mapValue ++ (writeList writePair w.vOrderForm ++
      (bytesLE 4 w.fTimeReceivedIsTxTime ++ (bytesLE 4 w.nTimeReceived ++
        (bytesLE 1 (charOfBool w.fFromMe) ++ bytesLE 1 (charOfBool fSpent))))))), w.erased)

/-- A record is read field by field, and the texts are taken out of `mapValue`. -/
def unserialize (S : WalletSizeof) : Reader WalletTxRecord := fun b => do
  let (merkleTx, b) ← CMerkleTx.unserialize S.toSizeof b
  let (vtxPrev, b) ← readList maxSize (5000000 / S.merkleTx) (CMerkleTx.unserialize S.toSizeof) b
  let (mapValue, b) ← readMapValue b
  let (vOrderForm, b) ← readList maxSize (5000000 / S.pair) readPair b
  let (fTimeReceivedIsTxTime, b) ← readWord 4 b
  let (nTimeReceived, b) ← readWord 4 b
  let (fFromMe, b) ← readWord 1 b
  let (fSpent, b) ← readWord 1 b
  let w : WalletTxRecord := { merkleTx.toCTransaction with
    hashBlock := merkleTx.hashBlock
    vMerkleBranch := merkleTx.vMerkleBranch
    nIndex := merkleTx.nIndex
    fFromMe := fFromMe != 0
    vfSpent :=
      match mapValue[keySpent]? with
      | some str => str.map fun c => c != UInt8.ofNat '0'.toNat
      | none => replicate merkleTx.vout.length (fSpent != 0)
    vtxPrev := vtxPrev
    mapValue := mapValue
    vOrderForm := vOrderForm
    fTimeReceivedIsTxTime := fTimeReceivedIsTxTime
    nTimeReceived := nTimeReceived
    nTimeSmart :=
      match mapValue[keyTimeSmart]? with
      | some text => (atoi64 text % 2 ^ 32).toNat
      | none => 0
    strFromAccount := mapValue.getD keyFromAccount []
    nOrderPos := readOrderPosValue mapValue }
  return (w.erased, b)

end WalletTxRecord

/-- The integers fit, and no vector is too long. -/
structure CMerkleTx.Bounded (m : CMerkleTx) : Prop where
  tx : m.toCTransaction.Bounded
  vMerkleBranch : m.vMerkleBranch.length ≤ maxSize
  nIndex : -2 ^ 31 ≤ m.nIndex ∧ m.nIndex < 2 ^ 31

theorem reads_merkleTx (S : Sizeof) :
    Wire.Reads (CMerkleTx.unserialize S) CMerkleTx.serialize CMerkleTx.Bounded := by
  intro b m r
  have hhash := reads_bits (w := 256) (k := 32) (by decide)
  have hbranch := reads_list (show maxSize < 256 ^ 8 by decide) (show 0 < 5000000 / 32 by norm_num)
    hhash
  simp only [CMerkleTx.unserialize, Option.bind_eq_bind, (reads_transaction S).bind_eq_some,
    hhash.bind_eq_some, hbranch.bind_eq_some, reads_int4.bind_eq_some, Option.pure_def,
    Option.some.injEq, Prod.mk.injEq]
  constructor
  · rintro ⟨tx, b1, htx, rfl, hashBlock, b2, -, rfl, vMerkleBranch, b3, ⟨hlength, -⟩, rfl, nIndex,
      b4, hindex, rfl, rfl, rfl⟩
    exact ⟨⟨htx, hlength, hindex⟩, by simp [CMerkleTx.serialize]⟩
  · rintro ⟨⟨htx, hlength, hindex⟩, rfl⟩
    refine ⟨m.toCTransaction, _, htx, ?_, m.hashBlock, _, trivial, rfl, m.vMerkleBranch, _,
      ⟨hlength, fun _ _ => trivial⟩, rfl, m.nIndex, r, hindex, rfl, rfl, rfl⟩
    simp [CMerkleTx.serialize]

namespace WalletTxRecord

variable {w : WalletTxRecord}

/-- The integers fit, and neither a vector, a map nor a text is too long as it is written. -/
structure Bounded (w : WalletTxRecord) : Prop where
  merkleTx : w.toCMerkleTx.Bounded
  vtxPrev : w.vtxPrev.length ≤ maxSize ∧ ∀ m ∈ w.vtxPrev, m.Bounded
  mapValue : MapBounded w.filled
  vOrderForm : w.vOrderForm.length ≤ maxSize ∧ ∀ e ∈ w.vOrderForm, PairBounded e
  fTimeReceivedIsTxTime : w.fTimeReceivedIsTxTime < 2 ^ 32
  nTimeReceived : w.nTimeReceived < 2 ^ 32
  nTimeSmart : w.nTimeSmart < 2 ^ 32
  nOrderPos : -2 ^ 63 ≤ w.nOrderPos ∧ w.nOrderPos < 2 ^ 63

/-- The map has none of the keys that are erased. -/
def Unreserved (w : WalletTxRecord) : Prop := ∀ k ∈ reservedKeys, w.mapValue[k]? = none

theorem filled_timeSmart (w : WalletTxRecord) : w.filled[keyTimeSmart]? =
    if w.nTimeSmart ≠ 0 then some (textBytes (toDigits 10 w.nTimeSmart))
    else w.mapValue[keyTimeSmart]? := by
  rw [filled]
  split_ifs
  · rw [getElem?_insert_mapValue, if_pos rfl]
  · rw [getElem?_writeOrderPosValue (by decide), getElem?_insert_mapValue, if_neg (by decide),
      getElem?_insert_mapValue, if_neg (by decide)]

theorem getElem?_filled {k : List UInt8} (h : k ≠ keyTimeSmart) : w.filled[k]? =
    (writeOrderPosValue w.nOrderPos
      ((w.mapValue.insert keyFromAccount w.strFromAccount).insert keySpent w.spentText))[k]? := by
  rw [filled]
  split_ifs
  · rw [getElem?_insert_mapValue, if_neg h.symm]
  · rfl

theorem filled_fromAccount (w : WalletTxRecord) :
    w.filled[keyFromAccount]? = some w.strFromAccount := by
  rw [getElem?_filled (by decide), getElem?_writeOrderPosValue (by decide),
    getElem?_insert_mapValue, if_neg (by decide), getElem?_insert_mapValue, if_pos rfl]

theorem filled_spent (w : WalletTxRecord) : w.filled[keySpent]? = some w.spentText := by
  rw [getElem?_filled (by decide), getElem?_writeOrderPosValue (by decide),
    getElem?_insert_mapValue, if_pos rfl]

theorem filled_of_notMem {k : List UInt8} (h : k ∉ reservedKeys) :
    w.filled[k]? = w.mapValue[k]? := by
  simp only [reservedKeys, mem_cons, not_mem_nil, or_false, not_or] at h
  obtain ⟨hfrom, -, hspent, hn, htime⟩ := h
  rw [getElem?_filled htime, getElem?_writeOrderPosValue hn, getElem?_insert_mapValue,
    if_neg (Ne.symm hspent), getElem?_insert_mapValue, if_neg (Ne.symm hfrom)]

theorem Unreserved.foldl_erase (h : w.Unreserved) :
    reservedKeys.foldl (fun m k => m.erase k) w.filled = w.mapValue := by
  refine Std.ExtTreeMap.ext_getElem? fun k => ?_
  rw [getElem?_foldl_erase]
  split_ifs with hmem
  · exact (h k hmem).symm
  · exact filled_of_notMem hmem

theorem Unreserved.serialize_snd (h : w.Unreserved) : w.serialize.2 = w := by
  rw [serialize, erased]
  rw [h.foldl_erase]

theorem spentText_ne_zero (w : WalletTxRecord) :
    (w.spentText.map fun c => c != UInt8.ofNat '0'.toNat) = w.vfSpent := by
  rw [spentText, textBytes, map_map, map_map]
  refine (map_congr_left fun f _ => ?_).trans (map_id _)
  cases f <;> rfl

theorem timeSmart_eq (htime : w.nTimeSmart < 2 ^ 32) (hkey : w.mapValue[keyTimeSmart]? = none) :
    (match w.filled[keyTimeSmart]? with
      | some text => (atoi64 text % 2 ^ 32).toNat
      | none => 0) = w.nTimeSmart := by
  rw [filled_timeSmart]
  split_ifs with hzero
  · dsimp only
    rw [atoi64_digits (by omega), Int.emod_eq_of_lt (by omega) (by omega), Int.toNat_natCast]
  · rw [hkey]
    exact (not_not.1 hzero).symm

/-- A record is read as it was written. -/
theorem Bounded.unserialize_append (S : WalletSizeof) (h : w.Bounded) (hkeys : w.Unreserved)
    (r : List UInt8) : unserialize S (w.serialize.1 ++ r) = some (w, r) := by
  have hmax : maxSize < 256 ^ 8 := by decide
  have hmerkle := (reads_merkleTx S.toSizeof).write_append h.merkleTx
  have hprev := (reads_list hmax S.merkleTx_fits (reads_merkleTx S.toSizeof)).write_append h.vtxPrev
  have hmap := readMapValue_append h.mapValue
  have horder := (reads_list hmax S.pair_fits reads_pair).write_append h.vOrderForm
  have htxtime := (reads_word 4).write_append h.fTimeReceivedIsTxTime
  have htime := (reads_word 4).write_append h.nTimeReceived
  have hchar : ∀ f r, readWord 1 (bytesLE 1 (charOfBool f) ++ r) = some (charOfBool f, r) :=
    fun f r => (reads_word 1).write_append (by cases f <;> decide) r
  have hbytes : w.serialize.1 =
      w.toCMerkleTx.serialize ++ (writeList CMerkleTx.serialize w.vtxPrev ++
        (writeMapValue w.filled ++ (writeList writePair w.vOrderForm ++
          (bytesLE 4 w.fTimeReceivedIsTxTime ++ (bytesLE 4 w.nTimeReceived ++
            (bytesLE 1 (charOfBool w.fFromMe) ++
              bytesLE 1 (charOfBool (w.vfSpent.any id)))))))) := rfl
  have hpos : readOrderPosValue w.filled = w.nOrderPos := by
    refine readOrderPosValue_eq h.nOrderPos.1 h.nOrderPos.2 (m := (w.mapValue.insert keyFromAccount
      w.strFromAccount).insert keySpent w.spentText) ?_ (getElem?_filled (by decide))
    rw [getElem?_insert_mapValue, if_neg (by decide), getElem?_insert_mapValue, if_neg (by decide)]
    exact hkeys keyN (by decide)
  have hfrom : w.filled.getD keyFromAccount [] = w.strFromAccount := by
    rw [Std.ExtTreeMap.getD_eq_getD_getElem?, filled_fromAccount, Option.getD_some]
  have hme : (charOfBool w.fFromMe != 0) = w.fFromMe := by
    cases w.fFromMe <;> rfl
  have hsmart := timeSmart_eq h.nTimeSmart (hkeys keyTimeSmart (by decide))
  simp only [hbytes, unserialize, append_assoc, Option.bind_eq_bind, hmerkle, hprev, hmap,
    horder, htxtime, htime, hchar, Option.bind_some, hpos, hfrom, hme, hsmart,
    filled_spent, spentText_ne_zero, erased, hkeys.foldl_erase]
  rfl

end WalletTxRecord

/-! ### Accounting entries -/

/-- A `CAccountingEntry`, without what is in its key. -/
structure CAccountingEntry where
  nCreditDebit : ℤ
  nTime : ℤ
  strOtherAccount : List UInt8
  strComment : List UInt8
  mapValue : MapValue
  nOrderPos : ℤ
  ssExtra : List UInt8

/-- `nType & SER_GETHASH`. -/
def hashing (nType : ℕ) : Bool := nType &&& 2 ^ 2 != 0

namespace CAccountingEntry

variable {e : CAccountingEntry} {nType : ℕ} {nVersion : ℤ}

/-- The map as it is written. -/
def filled (e : CAccountingEntry) : MapValue := writeOrderPosValue e.nOrderPos e.mapValue

/-- The comment as it is written, with the map and the extra data behind a NUL. -/
def writtenComment (e : CAccountingEntry) : List UInt8 :=
  if e.filled.isEmpty && e.ssExtra.isEmpty then e.strComment
  else e.strComment ++ 0 :: (writeMapValue e.filled ++ e.ssExtra)

/-- What is written, and the object afterwards. -/
def serialize (nType : ℕ) (nVersion : ℤ) (e : CAccountingEntry) : List UInt8 × CAccountingEntry :=
  ((if hashing nType then [] else writeInt 4 nVersion) ++ (writeInt 8 e.nCreditDebit ++
      (writeInt 8 e.nTime ++ (writeVector e.strOtherAccount ++ writeVector e.writtenComment))),
    { e with
      mapValue := e.filled.erase keyN
      strComment := e.writtenComment.takeWhile (· != 0) })

/-- `READWRITE(nVersion)`; what is read is dropped. -/
def readVersion (nType : ℕ) (b : List UInt8) : Option (List UInt8) :=
  if hashing nType then some b else (readInt 4 b).map Prod.snd

/-- The map and the extra data behind the first NUL of the comment. -/
def readSeparated (strComment : List UInt8) : Option (MapValue × List UInt8) :=
  match strComment.dropWhile (· != 0) with
  | [] => some (∅, [])
  | _ :: rest => readMapValue rest

/-- An entry is read field by field, and the map is taken out of the comment. -/
def unserialize (nType : ℕ) : Reader CAccountingEntry := fun b => do
  let b ← readVersion nType b
  let (nCreditDebit, b) ← readInt 8 b
  let (nTime, b) ← readInt 8 b
  let (strOtherAccount, b) ← readVector maxSize b
  let (strComment, b) ← readVector maxSize b
  let (mapValue, ssExtra) ← readSeparated strComment
  return ({
    nCreditDebit := nCreditDebit
    nTime := nTime
    strOtherAccount := strOtherAccount
    strComment := strComment.takeWhile (· != 0)
    mapValue := mapValue.erase keyN
    nOrderPos := readOrderPosValue mapValue
    ssExtra := ssExtra }, b)

/-- The integers fit, and neither a map nor a text is too long as it is written. -/
structure Bounded (e : CAccountingEntry) : Prop where
  nCreditDebit : -2 ^ 63 ≤ e.nCreditDebit ∧ e.nCreditDebit < 2 ^ 63
  nTime : -2 ^ 63 ≤ e.nTime ∧ e.nTime < 2 ^ 63
  strOtherAccount : e.strOtherAccount.length ≤ maxSize
  writtenComment : e.writtenComment.length ≤ maxSize
  mapValue : MapBounded e.filled
  nOrderPos : -2 ^ 63 ≤ e.nOrderPos ∧ e.nOrderPos < 2 ^ 63

/-- The comment has no NUL, and the map has not the key that is erased. -/
structure Unreserved (e : CAccountingEntry) : Prop where
  strComment : 0 ∉ e.strComment
  mapValue : e.mapValue[keyN]? = none

theorem ne_zero_of_mem (h : 0 ∉ e.strComment) : ∀ c ∈ e.strComment, (c != 0) = true := by
  intro c hc
  rw [bne_iff_ne]
  rintro rfl
  exact h hc

theorem Unreserved.takeWhile (h : e.Unreserved) :
    e.writtenComment.takeWhile (· != 0) = e.strComment := by
  have hall := ne_zero_of_mem h.strComment
  rw [writtenComment]
  split_ifs
  · exact takeWhile_eq_self_iff.2 hall
  · rw [takeWhile_append_of_pos hall, takeWhile_cons_of_neg (by decide), append_nil]

theorem Unreserved.erase (h : e.Unreserved) : e.filled.erase keyN = e.mapValue := by
  refine Std.ExtTreeMap.ext_getElem? fun k => ?_
  rw [getElem?_erase_mapValue]
  split_ifs with hk
  · rw [← hk, h.mapValue]
  · exact getElem?_writeOrderPosValue (Ne.symm hk) _ _

theorem Unreserved.serialize_snd (h : e.Unreserved) (nType : ℕ) (nVersion : ℤ) :
    (e.serialize nType nVersion).2 = e := by
  rw [serialize]
  rw [h.takeWhile, h.erase]

theorem Bounded.readSeparated_eq (h : e.Bounded) (hkeys : e.Unreserved) :
    readSeparated e.writtenComment = some (e.filled, e.ssExtra) := by
  have hall := ne_zero_of_mem hkeys.strComment
  rw [readSeparated, CAccountingEntry.writtenComment]
  split_ifs with hempty
  · obtain ⟨hmap, hextra⟩ := Bool.and_eq_true_iff.1 hempty
    rw [dropWhile_eq_nil_iff.2 hall, Std.ExtTreeMap.isEmpty_iff.1 hmap, isEmpty_iff.1 hextra]
  · rw [dropWhile_append_of_pos hall, dropWhile_cons_of_neg (by decide)]
    exact readMapValue_append h.mapValue e.ssExtra

/-- An entry is read as it was written. -/
theorem Bounded.unserialize_append (h : e.Bounded) (hkeys : e.Unreserved)
    (hlow : -2 ^ 31 ≤ nVersion) (hhigh : nVersion < 2 ^ 31) (r : List UInt8) :
    unserialize nType ((e.serialize nType nVersion).1 ++ r) = some (e, r) := by
  have hint : ∀ z : ℤ, -2 ^ 63 ≤ z ∧ z < 2 ^ 63 → ∀ r, readInt 8 (writeInt 8 z ++ r) =
      some (z, r) := fun z hz r => (reads_int 8).write_append (by norm_num at hz ⊢; omega) r
  have hvector := reads_vector (show maxSize < 256 ^ 8 by decide)
  have hversion : ∀ r, readVersion nType ((if hashing nType then [] else writeInt 4 nVersion) ++
      r) = some r := by
    intro r
    rw [readVersion]
    split_ifs
    · rfl
    · rw [reads_int4.write_append ⟨hlow, hhigh⟩, Option.map_some]
  have hpos : readOrderPosValue e.filled = e.nOrderPos :=
    readOrderPosValue_eq h.nOrderPos.1 h.nOrderPos.2 hkeys.mapValue rfl
  simp only [serialize, unserialize, append_assoc, Option.bind_eq_bind, hversion,
    hint _ h.nCreditDebit, hint _ h.nTime, hvector.write_append h.strOtherAccount,
    hvector.write_append h.writtenComment, h.readSeparated_eq hkeys, Option.bind_some,
    Option.pure_def, hpos, hkeys.takeWhile, hkeys.erase]

end CAccountingEntry

/-! ### The codec -/

/-- **Records of transactions and of accounting entries are read as they were written**, whatever
follows, unless something in them is too long; and writing them leaves them as they were. -/
theorem walletRecords_roundTrip (S : WalletSizeof) (nType : ℕ) {nVersion : ℤ}
    (hlow : -2 ^ 31 ≤ nVersion) (hhigh : nVersion < 2 ^ 31) :
    (∀ w : WalletTxRecord, w.Unreserved → w.serialize.2 = w ∧
      (w.Bounded → ∀ r, WalletTxRecord.unserialize S (w.serialize.1 ++ r) = some (w, r))) ∧
    ∀ e : CAccountingEntry, e.Unreserved → (e.serialize nType nVersion).2 = e ∧
      (e.Bounded → ∀ r, CAccountingEntry.unserialize nType ((e.serialize nType nVersion).1 ++ r) =
        some (e, r)) :=
  ⟨fun _ hkeys => ⟨hkeys.serialize_snd, fun h r => h.unserialize_append S hkeys r⟩,
    fun _ hkeys => ⟨hkeys.serialize_snd nType nVersion,
      fun h r => h.unserialize_append hkeys hlow hhigh r⟩⟩

theorem readVector_of_long {s : List UInt8} (h : maxSize < s.length) (h' : s.length < 256 ^ 8)
    (r : List UInt8) : readVector maxSize (writeVector s ++ r) = none := by
  have hmax : maxSize < 256 ^ 8 := by decide
  by_contra hsome
  obtain ⟨⟨x, r'⟩, hread⟩ := Option.ne_none_iff_exists'.1 hsome
  obtain ⟨hx, heq⟩ := (reads_vector hmax _ _ _).1 hread
  obtain ⟨rfl, -⟩ := delimits_vector s x r r' h' (hx.trans_lt hmax) heq
  exact absurd hx (not_le.2 h)

/-- An entry with another account of some name. -/
def entryWithName (strOtherAccount : List UInt8) : CAccountingEntry :=
  ⟨0, 0, strOtherAccount, [], ∅, -1, []⟩

theorem entryWithName_unreserved (name : List UInt8) : (entryWithName name).Unreserved :=
  ⟨not_mem_nil, Std.ExtTreeMap.getElem?_empty⟩

theorem unserialize_of_longName {name : List UInt8} (h : maxSize < name.length)
    (h' : name.length < 256 ^ 8) : CAccountingEntry.unserialize 2
      ((entryWithName name).serialize 2 1000000).1 = none := by
  have hlong := readVector_of_long h h'
  have hversion : ∀ r, readInt 4 (writeInt 4 1000000 ++ r) = some (1000000, r) :=
    reads_int4.write_append ⟨by norm_num, by norm_num⟩
  have hint : ∀ r, readInt 8 (writeInt 8 0 ++ r) = some (0, r) :=
    (reads_int 8).write_append ⟨by norm_num, by norm_num⟩
  rw [CAccountingEntry.serialize, CAccountingEntry.unserialize, CAccountingEntry.readVersion,
    if_neg (by decide), if_neg (by decide)]
  simp only [entryWithName, hversion, hint, hlong, Option.map_some, Option.bind_eq_bind,
    Option.bind_some, Option.bind_none]

/-- An entry with a name of `maxSize + 1` bytes is not read again. -/
theorem accountingEntry_tooLong : ∃ e : CAccountingEntry, e.Unreserved ∧
    e.strOtherAccount.length = maxSize + 1 ∧
    CAccountingEntry.unserialize 2 (e.serialize 2 1000000).1 = none := by
  have hlength : (replicate (maxSize + 1) (97 : UInt8)).length = maxSize + 1 :=
    length_replicate
  generalize replicate (maxSize + 1) (97 : UInt8) = name at hlength
  refine ⟨entryWithName name, entryWithName_unreserved name, hlength,
    unserialize_of_longName (hlength ▸ lt_succ_self _) (hlength ▸ by decide)⟩

/-- The elements take as many bytes as on a usual machine. -/
def usualWalletSizeof : WalletSizeof where
  toSizeof := usualSizeof
  merkleTx := 160
  pair := 64
  merkleTx_fits := by norm_num
  pair_fits := by norm_num

/-- A transaction with one output that is spent. -/
def spentRecord : WalletTxRecord where
  nVersion := 1
  nTime := 5
  vin := []
  vout := [⟨7, []⟩]
  nLockTime := 0
  hashBlock := 0
  vMerkleBranch := []
  nIndex := -1
  fFromMe := true
  vfSpent := [true]
  vtxPrev := []
  mapValue := ∅
  vOrderForm := []
  fTimeReceivedIsTxTime := 1
  nTimeReceived := 1000
  nTimeSmart := 999
  strFromAccount := [97]
  nOrderPos := 12

theorem spentRecord_bounded : spentRecord.Bounded where
  merkleTx := by
    refine ⟨⟨by decide, by decide, ⟨zero_le _, ?_⟩, ⟨by decide, ?_⟩, by decide⟩, zero_le _,
      by decide⟩
    · exact fun txin h => absurd h not_mem_nil
    · intro txout h
      obtain rfl := mem_singleton.1 h
      exact ⟨by decide, zero_le _⟩
  vtxPrev := ⟨zero_le _, fun m h => absurd h not_mem_nil⟩
  mapValue := by
    unfold MapBounded PairBounded
    decide
  vOrderForm := ⟨zero_le _, fun e h => absurd h not_mem_nil⟩
  fTimeReceivedIsTxTime := by decide
  nTimeReceived := by decide
  nTimeSmart := by decide
  nOrderPos := by decide

theorem walletRecords_roundTrip_spent : spentRecord.serialize.2 = spentRecord ∧
    WalletTxRecord.unserialize usualWalletSizeof (spentRecord.serialize.1 ++ [1]) =
      some (spentRecord, [1]) ∧
    CAccountingEntry.unserialize 2 (((entryWithName [97]).serialize 2 1000000).1 ++ []) =
      some (entryWithName [97], []) := by
  have hkeys : spentRecord.Unreserved := fun _ _ => Std.ExtTreeMap.getElem?_empty
  have hentry : (entryWithName [97]).Bounded := by
    refine ⟨by decide, by decide, by decide, by decide, ?_, by decide⟩
    unfold MapBounded PairBounded
    decide
  obtain ⟨hrecords, hentries⟩ := walletRecords_roundTrip usualWalletSizeof 2
    (show -2 ^ 31 ≤ (1000000 : ℤ) by norm_num) (by norm_num)
  obtain ⟨hsame, hread⟩ := hrecords spentRecord hkeys
  exact ⟨hsame, hread spentRecord_bounded [1],
    (hentries (entryWithName [97]) (entryWithName_unreserved [97])).2 hentry []⟩

end Espers
