import Espers.Chain.ReorgSettings
import Espers.Fractal.Reversal
import Espers.Lib.Radix
import Espers.Retarget.Compact
import Espers.Script.Destination

/-!
# Base 58 and addresses

Bytes as a number in base 58, zero bytes in front as ones in front; a checksum of four bytes behind
the bytes; a version byte before the hash of a key or of a script.

* `encodeBase58_eq`, `decodeBase58_letters` : both directions change the base of the number.
* `decodeBase58_eq_some` : what is accepted, but for whitespace around it, consists of letters.
* `base58_roundTrip` : **bytes, texts and destinations come back as they were**, unless a text goes
  on behind a zero character.
-/

namespace Espers

open Wire List Nat Int Radix

/-! ### The source -/

/-- `pszBase58`. -/
def pszBase58 : Text :=
  ['1', '2', '3', '4', '5', '6', '7', '8', '9', 'A', 'B', 'C', 'D', 'E', 'F', 'G', 'H', 'J', 'K',
    'L', 'M', 'N', 'P', 'Q', 'R', 'S', 'T', 'U', 'V', 'W', 'X', 'Y', 'Z', 'a', 'b', 'c', 'd', 'e',
    'f', 'g', 'h', 'i', 'j', 'k', 'm', 'n', 'o', 'p', 'q', 'r', 's', 't', 'u', 'v', 'w', 'x', 'y',
    'z']

/-- The loop of `EncodeBase58`, which divides `bn` by 58 until nothing is left. -/
def base58Loop (bn : ℤ) : Text :=
  if 0 < bn then pszBase58.getD (bn.tmod 58).toNat '1' :: base58Loop (bn.tdiv 58) else []
termination_by bn.toNat
decreasing_by
  rw [tdiv_eq_ediv_of_nonneg (by omega)]
  omega

/-- `EncodeBase58`. -/
def encodeBase58 (b : List UInt8) : Text :=
  -- extra zero at the end, which makes the number a positive one
  let bn := bnSetvch (b.reverse ++ [0])
  (base58Loop bn ++ (b.takeWhile (· = 0)).map fun _ => '1').reverse

/-- The loop of `DecodeBase58`. -/
def decodeLoop58 (bn : ℤ) : Text → Option ℤ
  | [] => some bn
  | c :: p =>
    match pszBase58.findIdx? (· == c) with
    | none => if (c :: p).dropWhile isSpace = [] then some bn else none
    | some d => decodeLoop58 (bn * 58 + d) p

/-- Trim off the sign byte if present. -/
def trimSign (vch : List UInt8) : List UInt8 :=
  if 2 ≤ vch.length ∧ vch.getD (vch.length - 1) 0 = 0 ∧ 0x80 ≤ vch.getD (vch.length - 2) 0 then
    vch.dropLast
  else vch

/-- `DecodeBase58`. -/
def decodeBase58 (str : Text) : Option (List UInt8) :=
  let psz := (cStr str).dropWhile isSpace
  (decodeLoop58 0 psz).map fun bn =>
    List.replicate (psz.takeWhile (· = '1')).length 0 ++ (trimSign (bnGetvch bn)).reverse

/-- The first four bytes of a hash. -/
def hashPrefix (hash : Uint256) : List UInt8 := (writeBits 32 hash).take 4

/-- `EncodeBase58Check`. -/
def encodeBase58Check (hash : List UInt8 → Uint256) (vchIn : List UInt8) : Text :=
  encodeBase58 (vchIn ++ hashPrefix (hash vchIn))

/-- `DecodeBase58Check`. -/
def decodeBase58Check (hash : List UInt8 → Uint256) (str : Text) : Option (List UInt8) :=
  (decodeBase58 str).bind fun vchRet =>
    if vchRet.length < 4 then none
    else
      let data := vchRet.take (vchRet.length - 4)
      if hashPrefix (hash data) ≠ vchRet.drop (vchRet.length - 4) then none else some data

/-- `CBase58Data`. -/
structure CBase58Data where
  vchVersion : List UInt8
  vchData : List UInt8
  deriving DecidableEq

/-- `SetString`, with what it returns. -/
def CBase58Data.setString (hash : List UInt8 → Uint256) (str : Text) (nVersionBytes : ℕ) :
    Bool × CBase58Data :=
  let vchTemp := (decodeBase58Check hash str).getD []
  if vchTemp.length < nVersionBytes then (false, ⟨[], []⟩)
  else (true, ⟨vchTemp.take nVersionBytes, vchTemp.drop nVersionBytes⟩)

/-- `ToString`. -/
def CBase58Data.toText (hash : List UInt8 → Uint256) (b58 : CBase58Data) : Text :=
  encodeBase58Check hash (b58.vchVersion ++ b58.vchData)

namespace CBitcoinAddress

/-- `Base58Prefix(PUBKEY_ADDRESS)`. -/
def pubkeyPrefix : Network → List UInt8
  | .main => [33]
  | .testnet | .regtest => [34]

/-- `Base58Prefix(SCRIPT_ADDRESS)`. -/
def scriptPrefix : Network → List UInt8
  | .main => [92]
  | .testnet | .regtest => [94]

/-- `CBitcoinAddress(dest)`, which leaves the address empty for `CNoDestination`. -/
def ofDestination (net : Network) : CTxDestination → CBase58Data
  | .noDestination => ⟨[], []⟩
  | .keyID id => ⟨pubkeyPrefix net, writeBits 20 id⟩
  | .scriptID id => ⟨scriptPrefix net, writeBits 20 id⟩

/-- `IsValid`. -/
def isValid (net : Network) (addr : CBase58Data) : Bool :=
  addr.vchData.length == 20 &&
    (addr.vchVersion == pubkeyPrefix net || addr.vchVersion == scriptPrefix net)

/-- `Get`. -/
def get (net : Network) (addr : CBase58Data) : CTxDestination :=
  if !isValid net addr then .noDestination
  else
    let id := BitVec.ofNat 160 (valueLE addr.vchData)
    if addr.vchVersion = pubkeyPrefix net then .keyID id
    else if addr.vchVersion = scriptPrefix net then .scriptID id
    else .noDestination

end CBitcoinAddress

/-- The letter of a digit. -/
def letter58 (d : ℕ) : Char := pszBase58.getD d '1'

theorem findIdx?_letter58 : ∀ d < 58, pszBase58.findIdx? (· == letter58 d) = some d := by
  decide

theorem letter58_of_findIdx? {c : Char} {d : ℕ} (h : pszBase58.findIdx? (· == c) = some d) :
    d < 58 ∧ letter58 d = c := by
  obtain ⟨hd, hc, -⟩ := findIdx?_eq_some_iff_getElem.1 h
  refine ⟨hd, ?_⟩
  rw [letter58, getD_eq_getElem?_getD, getElem?_eq_getElem hd]
  exact beq_iff_eq.1 hc

theorem letter58_spec : ∀ d < 58, isSpace (letter58 d) = false ∧ letter58 d ≠ '\x00' ∧
    (letter58 d = '1' ↔ d = 0) := by
  decide

theorem takeWhile_letters {ds : List ℕ} (hds : ∀ d ∈ ds, d < 58) :
    ((ds.map letter58).takeWhile (· = '1')).length = leadingZeros ds := by
  rw [leadingZeros, takeWhile_map, length_map]
  congr 1
  induction ds with
  | nil => rfl
  | cons d ds ih =>
    have hiff := (letter58_spec d (hds d (.head _))).2.2
    have ih := ih fun e he => hds e (.tail _ he)
    by_cases hd : d = 0
    · subst hd
      simpa [takeWhile_cons, hiff.2 rfl] using ih
    · simp [hd, hiff]

/-! ### Both directions change the base -/

theorem ofBytes_lt_sign (v : List UInt8) : bnSetvch (v ++ [0]) = ofBytes v := by
  rw [bnSetvch_concat, if_neg (by decide)]
  simp

theorem base58Loop_eq (n : ℕ) : base58Loop n = (Nat.digits 58 n).map letter58 := by
  induction n using Nat.strong_induction_on with
  | h n ih =>
    rw [base58Loop]
    by_cases hn : n = 0
    · simp [hn]
    · rw [if_pos (by omega), digits_def' (by norm_num) (pos_of_ne_zero hn), map_cons]
      have hdiv : (n : ℤ).tdiv 58 = (n / 58 : ℕ) := by
        rw [tdiv_eq_ediv_of_nonneg (by omega)]
        omega
      have hmod : ((n : ℤ).tmod 58).toNat = n % 58 := by
        rw [tmod_eq_emod_of_nonneg (by omega)]
        omega
      rw [hdiv, hmod, ih _ (by omega)]
      rfl

theorem encodeBase58_eq (b : List UInt8) :
    encodeBase58 b = (convert 256 58 (b.map UInt8.toNat)).map letter58 := by
  have hvalue : ofBytes b.reverse = value 256 (b.map UInt8.toNat) := by
    rw [ofBytes, value, map_reverse]
  have hzeros : (b.takeWhile (· = 0)).length = leadingZeros (b.map UInt8.toNat) := by
    rw [leadingZeros, takeWhile_map, length_map]
    congr 2
    funext c
    simp [← UInt8.toNat_inj]
  rw [encodeBase58, ofBytes_lt_sign, hvalue, base58Loop_eq, reverse_append,
    map_const', reverse_replicate, hzeros, convert, map_append,
    map_replicate, map_reverse]
  rfl

/-- Without its sign byte a number consists of its digits. -/
theorem trimSign_getvch (n : ℕ) : trimSign (getvch n) = (Nat.digits 256 n).map UInt8.ofNat := by
  rcases eq_nil_or_concat (Nat.digits 256 n) with h | ⟨l, a, h⟩
  · simp [getvch, trimSign, h]
  · rw [concat_eq_append] at h
    have hn : n ≠ 0 := by
      rintro rfl
      simp at h
    have ha : a < 256 := digits_lt_base (by norm_num)
      (h ▸ mem_append_right l (mem_singleton_self a))
    have hne : a ≠ 0 := by simpa [h] using getLast_digit_ne_zero 256 hn
    have htoNat : (UInt8.ofNat a).toNat = a := by
      rw [UInt8.toNat_ofNat']
      omega
    have hzero : UInt8.ofNat a ≠ 0 := fun hzero => hne (htoNat ▸ hzero ▸ rfl)
    simp only [getvch, h, map_append, map_cons, map_nil]
    by_cases hsign : 0x80 ≤ a
    · have hle : (0x80 : UInt8) ≤ UInt8.ofNat a :=
        UInt8.le_iff_toNat_le.2 (by rw [htoNat]; exact hsign)
      simp [trimSign, htoNat, hsign, hle]
    · simp [trimSign, htoNat, hsign, hzero]

theorem decodeLoop58_letters {ds : List ℕ} (hds : ∀ d ∈ ds, d < 58) (bn : ℕ) :
    decodeLoop58 bn (ds.map letter58) =
      some ((bn * 58 ^ ds.length + value 58 ds : ℕ) : ℤ) := by
  induction ds generalizing bn with
  | nil => simp [decodeLoop58, value]
  | cons d ds ih =>
    have hnext : (bn : ℤ) * 58 + d = (bn * 58 + d : ℕ) := by push_cast; ring
    rw [map_cons, decodeLoop58, findIdx?_letter58 d (hds d (.head _))]
    dsimp only
    rw [hnext, ih (fun e he => hds e (.tail _ he)), value, value, reverse_cons,
      ofDigits_append, length_reverse, ofDigits_singleton, length_cons]
    congr 2
    ring

/-- `DecodeBase58` of letters changes the base from 58 to 256. -/
theorem decodeBase58_letters {ds : List ℕ} (hds : ∀ d ∈ ds, d < 58) :
    decodeBase58 (ds.map letter58) = some ((convert 58 256 ds).map UInt8.ofNat) := by
  have hletter : ∀ c ∈ ds.map letter58, isSpace c = false ∧ c ≠ '\x00' := by
    intro c hc
    obtain ⟨d, hd, rfl⟩ := mem_map.1 hc
    exact ⟨(letter58_spec d (hds d hd)).1, (letter58_spec d (hds d hd)).2.1⟩
  have hspace : (ds.map letter58).dropWhile isSpace = ds.map letter58 := by
    cases h : ds.map letter58 with
    | nil => rfl
    | cons c p => rw [dropWhile_cons_of_neg (by simp [hletter c (by simp [h])])]
  have hbn := decodeLoop58_letters hds 0
  rw [zero_mul, zero_add] at hbn
  rw [decodeBase58, cStr_of_notMem fun h => (hletter _ h).2 rfl, hspace]
  rw [show (0 : ℤ) = (0 : ℕ) from rfl, hbn, Option.map_some, bnGetvch, if_neg (by omega),
    natAbs_natCast, trimSign_getvch, takeWhile_letters hds, convert, map_append,
    map_replicate, map_reverse]
  rfl

/-- Neither the first nor the last character is a space. -/
def Unspaced (s : Text) : Prop :=
  (∀ c ∈ s.head?, isSpace c = false) ∧ ∀ c ∈ s.getLast?, isSpace c = false

theorem letters_of_decodeLoop58 {bn bn' : ℤ} {s : Text} (h : decodeLoop58 bn s = some bn')
    (hlast : ∀ c ∈ s.getLast?, isSpace c = false) :
    ∃ ds : List ℕ, (∀ d ∈ ds, d < 58) ∧ s = ds.map letter58 := by
  induction s generalizing bn with
  | nil => exact ⟨[], by simp, rfl⟩
  | cons c p ih =>
    rw [decodeLoop58] at h
    cases hc : pszBase58.findIdx? (· == c) with
    | none =>
      -- only spaces follow, and the last character is none
      rw [hc] at h
      dsimp only at h
      split at h
      · rename_i hspaces
        have hall := dropWhile_eq_nil_iff.1 hspaces
        have hmem : (c :: p).getLast (cons_ne_nil c p) ∈ c :: p := getLast_mem _
        have hnot := hlast _ (getLast?_eq_getLast_of_ne_nil (cons_ne_nil c p))
        rw [hall _ hmem] at hnot
        cases hnot
      · cases h
    | some d =>
      rw [hc] at h
      obtain ⟨hd, hletter⟩ := letter58_of_findIdx? hc
      have hlast' : ∀ e ∈ p.getLast?, isSpace e = false := by
        intro e he
        refine hlast e ?_
        rw [Option.mem_def] at he ⊢
        rw [getLast?_cons, he]
        rfl
      obtain ⟨ds, hds, rfl⟩ := ih h hlast'
      exact ⟨d :: ds, by simpa using ⟨hd, hds⟩, by rw [map_cons, hletter]⟩

theorem decodeBase58_eq_some {s : Text} {v : List UInt8} (hs : Unspaced s) (hnul : '\x00' ∉ s)
    (h : decodeBase58 s = some v) : ∃ ds : List ℕ, (∀ d ∈ ds, d < 58) ∧ s = ds.map letter58 := by
  have hspace : s.dropWhile isSpace = s := by
    cases s with
    | nil => rfl
    | cons c p => rw [dropWhile_cons_of_neg (by simp [hs.1 c rfl])]
  rw [decodeBase58, cStr_of_notMem hnul, hspace] at h
  obtain ⟨bn, hbn, -⟩ := Option.map_eq_some_iff.1 h
  exact letters_of_decodeLoop58 hbn hs.2

/-! ### The round trips -/

theorem map_ofNat_toNat (b : List UInt8) : (b.map UInt8.toNat).map UInt8.ofNat = b := by
  rw [map_map]
  exact (map_congr_left fun c _ => UInt8.ofNat_toNat).trans (map_id b)

theorem decodeBase58_encodeBase58 (b : List UInt8) : decodeBase58 (encodeBase58 b) = some b := by
  have hbytes : ∀ d ∈ b.map UInt8.toNat, d < 256 := by
    intro d hd
    obtain ⟨c, -, rfl⟩ := mem_map.1 hd
    exact c.toNat_lt
  rw [encodeBase58_eq, decodeBase58_letters fun d hd => lt_of_mem_convert (by norm_num) hd,
    convert_convert (by norm_num) hbytes, map_ofNat_toNat]

theorem encodeBase58_decodeBase58 {s : Text} {v : List UInt8} (hs : Unspaced s)
    (hnul : '\x00' ∉ s) (h : decodeBase58 s = some v) : encodeBase58 v = s := by
  obtain ⟨ds, hds, rfl⟩ := decodeBase58_eq_some hs hnul h
  rw [decodeBase58_letters hds] at h
  obtain rfl := Option.some.inj h
  have htoNat : ((convert 58 256 ds).map UInt8.ofNat).map UInt8.toNat =
      convert 58 256 ds := by
    rw [map_map]
    conv_rhs => rw [← map_id (convert 58 256 ds)]
    refine map_congr_left fun d hd => ?_
    have hlt : d < 256 := lt_of_mem_convert (by norm_num) hd
    simp only [Function.comp_apply, UInt8.toNat_ofNat', id_eq]
    omega
  rw [encodeBase58_eq, htoNat, convert_convert (by norm_num) hds]

section Check

variable {hash : List UInt8 → Uint256}

theorem length_hashPrefix (h : Uint256) : (hashPrefix h).length = 4 := by
  simp [hashPrefix, writeBits]

theorem decodeBase58Check_encodeBase58Check (b : List UInt8) :
    decodeBase58Check hash (encodeBase58Check hash b) = some b := by
  rw [decodeBase58Check, encodeBase58Check, decodeBase58_encodeBase58, Option.bind_some]
  simp [length_hashPrefix]

theorem encodeBase58Check_decodeBase58Check {s : Text} {v : List UInt8} (hs : Unspaced s)
    (hnul : '\x00' ∉ s) (h : decodeBase58Check hash s = some v) : encodeBase58Check hash v = s := by
  obtain ⟨w, hw, h⟩ := Option.bind_eq_some_iff.1 h
  rw [encodeBase58Check]
  dsimp only at h
  split_ifs at h with hlen hsum
  obtain rfl := Option.some.inj h
  rw [not_not.1 hsum, take_append_drop, encodeBase58_decodeBase58 hs hnul hw]

namespace CBitcoinAddress

theorem setString_toText (b58 : CBase58Data) {n : ℕ} (hn : b58.vchVersion.length = n) :
    CBase58Data.setString hash (b58.toText hash) n = (true, b58) := by
  rw [CBase58Data.setString, CBase58Data.toText, decodeBase58Check_encodeBase58Check,
    Option.getD_some, if_neg (by simp [hn]), ← hn, take_left, drop_left]

theorem get_ofDestination (net : Network) {d : CTxDestination} (hd : d ≠ .noDestination) :
    isValid net (ofDestination net d) = true ∧ get net (ofDestination net d) = d ∧
      (ofDestination net d).vchVersion.length = 1 := by
  have hid (id : BitVec 160) : BitVec.ofNat 160 (valueLE (writeBits 20 id)) = id := by
    have hlt : id.toNat < 256 ^ 20 := id.isLt
    rw [writeBits, valueLE_bytesLE hlt, BitVec.ofNat_toNat, BitVec.setWidth_eq]
  have hlen (id : BitVec 160) : (writeBits 20 id).length = 20 := length_bytesLE 20 id.toNat
  cases d with
  | noDestination => exact absurd rfl hd
  | keyID id => cases net <;> simp [get, isValid, ofDestination, pubkeyPrefix, hlen, hid]
  | scriptID id =>
    cases net <;> simp [get, isValid, ofDestination, pubkeyPrefix, scriptPrefix, hlen, hid]

theorem toText_injOn (net : Network) {d d' : CTxDestination} (hd : d ≠ .noDestination)
    (hd' : d' ≠ .noDestination)
    (h : (ofDestination net d).toText hash = (ofDestination net d').toText hash) : d = d' := by
  obtain ⟨-, hget, hlen⟩ := get_ofDestination net hd
  obtain ⟨-, hget', hlen'⟩ := get_ofDestination net hd'
  have hset : (true, ofDestination net d') = (true, ofDestination net d) := by
    rw [← setString_toText _ hlen', ← h, setString_toText _ hlen]
  rw [← hget, ← hget', (Prod.mk.inj hset).2]

end CBitcoinAddress

end Check

/-- **Bytes and texts come back as they were**, with and without a checksum, and so do destinations,
which have different texts; a text must not go on behind a zero character. -/
theorem base58_roundTrip (hash : List UInt8 → Uint256) (net : Network) :
    (∀ b, decodeBase58 (encodeBase58 b) = some b) ∧
    (∀ b, decodeBase58Check hash (encodeBase58Check hash b) = some b) ∧
    (∀ s v, Unspaced s → '\x00' ∉ s → decodeBase58 s = some v → encodeBase58 v = s) ∧
    (∀ s v, Unspaced s → '\x00' ∉ s → decodeBase58Check hash s = some v →
      encodeBase58Check hash v = s) ∧
    (∀ d : CTxDestination, d ≠ .noDestination → ∃ addr,
      CBase58Data.setString hash ((CBitcoinAddress.ofDestination net d).toText hash) 1 =
        (true, addr) ∧
      CBitcoinAddress.isValid net addr = true ∧ CBitcoinAddress.get net addr = d) ∧
    ∀ d d' : CTxDestination, d ≠ .noDestination → d' ≠ .noDestination → d ≠ d' →
      (CBitcoinAddress.ofDestination net d).toText hash ≠
        (CBitcoinAddress.ofDestination net d').toText hash := by
  refine ⟨decodeBase58_encodeBase58, decodeBase58Check_encodeBase58Check,
    fun s v hs hnul => encodeBase58_decodeBase58 hs hnul,
    fun s v hs hnul => encodeBase58Check_decodeBase58Check hs hnul, fun d hd => ?_,
    fun d d' hd hd' hne heq => hne (CBitcoinAddress.toText_injOn net hd hd' heq)⟩
  obtain ⟨hvalid, hget, hlen⟩ := CBitcoinAddress.get_ofDestination net hd
  exact ⟨_, CBitcoinAddress.setString_toText _ hlen, hvalid, hget⟩

/-- A text that goes on behind a zero character is accepted, and is not what the bytes make. -/
theorem base58_stopsAtNul : Unspaced ['1', '\x00'] ∧ decodeBase58 ['1', '\x00'] = some [0] ∧
    encodeBase58 [0] ≠ ['1', '\x00'] := by
  have hspace : Unspaced ['1', '\x00'] ∧ Unspaced ['1'] := by
    simp [Unspaced]
    decide
  refine ⟨hspace.1, by decide, ?_⟩
  rw [encodeBase58_decodeBase58 hspace.2 (by decide) (by decide)]
  decide

end Espers
