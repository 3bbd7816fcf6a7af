import Espers.Addr.Manager
import Espers.Core.Codec
import Espers.Lib.Base32
import Mathlib.Data.List.GetD

/-!
# Addresses as text

An address is 16 bytes; prefixes tell IPv4, Tor and I2P apart.  `ToString` writes Tor and I2P
addresses in base 32 with an ending, and leaves the others to the system; `LookupHost` reads the
endings back, and leaves the rest to the system.

* `lookupHost_toString` : **the text of an address is read back as it**, unless it is an I2P
  address.
* `lookupHost_toString_i2p` : that of an I2P address is read as the Tor address with the same ten
  bytes.
* `CSubNet.ofAddr_eq`, `CSubNet.matchAddr_single` : the subnet of one address, and what it matches.
-/

namespace Espers

open Wire List

/-! ### Bytes -/

/-- `ip`. -/
def ipBytes (a : CNetAddr) : List UInt8 := bytesBE 16 a.toNat

/-- The address with the bytes `ip`. -/
def ofIpBytes (ip : List UInt8) : CNetAddr := BitVec.ofNat 128 (valueLE ip.reverse)

/-- `pchIPv4`. -/
def pchIPv4 : List UInt8 := [0, 0, 0, 0, 0, 0, 0, 0, 0, 0, 0xff, 0xff]

/-- `pchOnionCat`. -/
def pchOnionCat : List UInt8 := [0xFD, 0x87, 0xD8, 0x7E, 0xEB, 0x43]

/-- `pchGarliCat`. -/
def pchGarliCat : List UInt8 := [0xFD, 0x60, 0xDB, 0x4D, 0xDD, 0xB5]

namespace NetAddr

/-- `GetByte`. -/
def getByte (a : CNetAddr) (n : ℕ) : UInt8 := (ipBytes a).getD (15 - n) 0

/-- `IsIPv4`. -/
def isIPv4 (a : CNetAddr) : Bool := (ipBytes a).take 12 == pchIPv4

/-- `IsTor`. -/
def isTor (a : CNetAddr) : Bool := (ipBytes a).take 6 == pchOnionCat

/-- `IsI2P`. -/
def isI2P (a : CNetAddr) : Bool := (ipBytes a).take 6 == pchGarliCat

/-- `IsIPv6`. -/
def isIPv6 (a : CNetAddr) : Bool := !isIPv4 a && !isTor a && !isI2P a

/-- `IsRFC3849`. -/
def isRFC3849 (a : CNetAddr) : Bool :=
  getByte a 15 == 0x20 && getByte a 14 == 0x01 && getByte a 13 == 0x0D && getByte a 12 == 0xB8

/-- `IsValid`. -/
def isValid (a : CNetAddr) : Bool :=
  -- clean up 3-byte shifted addresses
  if (ipBytes a).take 9 == pchIPv4.drop 3 then false
  -- unspecified IPv6 address
  else if ipBytes a == replicate 16 0 then false
  -- documentation IPv6 address
  else if isRFC3849 a then false
  else if isIPv4 a then
    (ipBytes a).drop 12 != replicate 4 255 && (ipBytes a).drop 12 != replicate 4 0
  else true

end NetAddr

theorem length_ipBytes (a : CNetAddr) : (ipBytes a).length = 16 := by
  simp [ipBytes, bytesBE]

theorem ofIpBytes_ipBytes (a : CNetAddr) : ofIpBytes (ipBytes a) = a := by
  have hlt : a.toNat < 256 ^ 16 := a.isLt
  rw [ofIpBytes, ipBytes, bytesBE, reverse_reverse, valueLE_bytesLE hlt, BitVec.ofNat_toNat,
    BitVec.setWidth_eq]

theorem ipBytes_ofIpBytes {ip : List UInt8} (h : ip.length = 16) : ipBytes (ofIpBytes ip) = ip := by
  have hlen : ip.reverse.length = 16 := by rw [length_reverse, h]
  have hlt : valueLE ip.reverse < 2 ^ 128 := by
    have := valueLE_lt ip.reverse
    rwa [hlen] at this
  rw [ipBytes, ofIpBytes, BitVec.toNat_ofNat, Nat.mod_eq_of_lt hlt, bytesBE]
  conv_lhs => rw [← hlen]
  rw [bytesLE_valueLE, reverse_reverse]

theorem ipBytes_injective : Function.Injective ipBytes := fun a b h => by
  rw [← ofIpBytes_ipBytes a, h, ofIpBytes_ipBytes]

/-! ### Base 32 -/

/-- `pbase32`. -/
def pbase32 : List Char :=
  ['a', 'b', 'c', 'd', 'e', 'f', 'g', 'h', 'i', 'j', 'k', 'l', 'm', 'n', 'o', 'p', 'q', 'r',
    's', 't', 'u', 'v', 'w', 'x', 'y', 'z', '2', '3', '4', '5', '6', '7']

/-- `decode32_table`. -/
def decode32 (c : Char) : Option ℕ :=
  if '2' ≤ c ∧ c ≤ '7' then some (c.toNat - 50 + 26)
  else if 'A' ≤ c ∧ c ≤ 'Z' then some (c.toNat - 65)
  else if 'a' ≤ c ∧ c ≤ 'z' then some (c.toNat - 97)
  else none

/-- `EncodeBase32`. -/
def encodeBase32 (b : List UInt8) : List Char := Base32.encodeWith (fun v => pbase32.getD v '=') b

/-- `DecodeBase32`. -/
def decodeBase32 (s : List Char) : List UInt8 := Base32.decodeWith decode32 s

variable {b : List UInt8}

/-- The code of `EncodeBase32` and `DecodeBase32`. -/
def base32 : BitCode.Code := Base32.code (fun v => pbase32.getD v '=') decode32

theorem encodeBase32_eq (b : List UInt8) : encodeBase32 b = base32.encode b :=
  Base32.encodeWith_eq b

theorem decodeBase32_eq (s : List Char) : decodeBase32 s = (base32.decode s).1 :=
  Base32.decodeWith_eq s

theorem toNat_lt_of_le {c d : Char} {n : ℕ} (h : c ≤ d) (hd : d.toNat < n) : c.toNat < n :=
  lt_of_le_of_lt (show c.toNat ≤ d.toNat from h) hd

theorem decode32_spec (c : Char) : ∀ v ∈ decode32 c, v < 32 ∧ pbase32.getD v '=' = c.toLower := by
  have hall : ∀ n < 128, ∀ v ∈ decode32 (Char.ofNat n),
      v < 32 ∧ pbase32.getD v '=' = (Char.ofNat n).toLower := by decide +kernel
  intro v hv
  have hlt : c.toNat < 128 := by
    rw [decode32] at hv
    split_ifs at hv with h h h
    iterate 3 exact toNat_lt_of_le h.2 (by decide)
    cases hv
  have hc := hall c.toNat hlt v
  rw [Char.ofNat_toNat] at hc
  exact hc hv

theorem base32_sound : base32.Sound 5 8 Base32.waitEncode Base32.waitDecode :=
  Base32.code_sound (by decide) (fun c v hv => (decode32_spec c v hv).1) ⟨rfl, rfl⟩

theorem decodeBase32_encodeBase32 : decodeBase32 (encodeBase32 b) = b := by
  rw [decodeBase32_eq, encodeBase32_eq, base32_sound.decode_encode]

/-- A `sockaddr`: the bytes of an IPv4 or of an IPv6 address. -/
inductive SockAddr where
  | inet (sinAddr : List UInt8)
  | inet6 (sin6Addr : List UInt8)
  deriving DecidableEq

/-- The address has as many bytes as it should. -/
def SockAddr.Ok : SockAddr → Prop
  | inet sinAddr => sinAddr.length = 4
  | inet6 sin6Addr => sin6Addr.length = 16

/-- `getnameinfo` with `NI_NUMERICHOST`, and `getaddrinfo` with `AI_NUMERICHOST`. -/
structure Resolver where
  getnameinfo : SockAddr → Option (List Char)
  getaddrinfo : List Char → Option (List SockAddr)

/-- The characters of numeric addresses. -/
def numericChar (c : Char) : Bool := c.isDigit || decide ('a' ≤ c ∧ c ≤ 'f') || c == '.' || c == ':'

/-- The numeric form of an address is read back as the address. -/
structure Resolver.Numeric (R : Resolver) : Prop where
  inverse : ∀ sa : SockAddr, sa.Ok → ∃ text, R.getnameinfo sa = some text ∧
    R.getaddrinfo text = some [sa] ∧ text ≠ [] ∧ ∀ c ∈ text, numericChar c = true

/-! ### The source -/

/-- `CService::GetSockAddr`. -/
def getSockAddr (a : CNetAddr) : Option SockAddr :=
  if NetAddr.isIPv4 a then some (.inet ((ipBytes a).drop 12))
  else if NetAddr.isIPv6 a then some (.inet6 (ipBytes a))
  else none

/-- The constructors from an `in_addr` and an `in6_addr`. -/
def ofSockAddr : SockAddr → CNetAddr
  | .inet sinAddr => ofIpBytes (pchIPv4 ++ sinAddr)
  | .inet6 sin6Addr => ofIpBytes sin6Addr

/-- `%u.%u.%u.%u`. -/
def formatIPv4 (ns : List ℕ) : List Char := ['.'].intercalate (ns.map (Nat.toDigits 10))

/-- `%x:%x:%x:%x:%x:%x:%x:%x`. -/
def formatIPv6 (ns : List ℕ) : List Char := [':'].intercalate (ns.map (Nat.toDigits 16))

/-- Words of two bytes. -/
def bytePairs : List UInt8 → List ℕ
  | b :: c :: rest => (b.toNat <<< 8 ||| c.toNat) :: bytePairs rest
  | _ => []

/-- `ToStringIP`. -/
def toStringIP (R : Resolver) (a : CNetAddr) : List Char :=
  if NetAddr.isTor a then encodeBase32 ((ipBytes a).drop 6) ++ ['.', 'o', 'n', 'i', 'o', 'n']
  else if NetAddr.isI2P a then
    encodeBase32 ((ipBytes a).drop 6) ++ ['.', 'o', 'c', '.', 'b', '3', '2', '.', 'i', '2', 'p']
  else
    match (getSockAddr a).bind R.getnameinfo with
    | some name => name
    | none =>
      if NetAddr.isIPv4 a then formatIPv4 (((ipBytes a).drop 12).map UInt8.toNat)
      else formatIPv6 (bytePairs (ipBytes a))

/-- `SetSpecial`. -/
def setSpecial (strName : List Char) : Option CNetAddr :=
  let n := strName.length
  if n > 6 ∧ strName.drop (n - 6) = ['.', 'o', 'n', 'i', 'o', 'n'] then
    let vchAddr := decodeBase32 (strName.take (n - 6))
    if vchAddr.length ≠ 16 - pchOnionCat.length then none
    else some (ofIpBytes (pchOnionCat ++ vchAddr))
  else if n > 11 ∧ strName.drop (n - 11) =
    ['.', 'o', 'c', '.', 'b', '3', '2', '.', 'i', '2', 'p'] then
    let vchAddr := decodeBase32 (strName.take (n - 11))
    if vchAddr.length ≠ 16 - pchGarliCat.length then none
    -- the bytes that are copied are those of pchOnionCat
    else some (ofIpBytes (pchOnionCat ++ vchAddr))
  else none

/-- `LookupIntern`, without name resolution, for one solution. -/
def lookupIntern (R : Resolver) (name : List Char) : Option CNetAddr :=
  match setSpecial name with
  | some a => some a
  | none => (R.getaddrinfo name).bind fun aiRes => aiRes.head?.map ofSockAddr

/-- `LookupHost`, without name resolution, for one solution. -/
def lookupHost (R : Resolver) (str : List Char) : Option CNetAddr :=
  if str = [] then none
  else if str.head? = some '[' ∧ str.getLast? = some ']' then
    lookupIntern R ((str.drop 1).take (str.length - 2))
  else lookupIntern R str

/-! ### Subnets -/

/-- `strtol(s, &endp, 10)`: the number, and the text at `endp`. -/
def strtol (s : List Char) : ℤ × List Char :=
  let t := s.dropWhile fun c => c = ' ' || (9 ≤ c.toNat && c.toNat ≤ 13)
  let (negative, t) :=
    match t with
    | '-' :: rest => (true, rest)
    | '+' :: rest => (false, rest)
    | rest => (false, rest)
  let n : ℤ := (Nat.ofDigitChars 10 (t.takeWhile Char.isDigit) 0 : ℕ)
  if t.takeWhile Char.isDigit = [] then (0, s)
  else (if negative then -n else n, t.dropWhile Char.isDigit)

/-- `ParseInt32`. -/
def parseInt32 (s : List Char) : Option ℤ :=
  let (n, rest) := strtol s
  if rest = [] ∧ -2 ^ 31 ≤ n ∧ n ≤ 2 ^ 31 - 1 then some n else none

/-- `CSubNet`. -/
structure CSubNet where
  network : CNetAddr
  netmask : List UInt8
  valid : Bool
  deriving DecidableEq

namespace CSubNet

/-- What is before the last `/`, and what is behind it. -/
def splitSlash (s : List Char) : List Char × Option (List Char) :=
  match s.reverse.dropWhile (· ≠ '/') with
  | [] => (s, none)
  | _ :: front => (front.reverse, some (s.reverse.takeWhile (· ≠ '/')).reverse)

/-- Clear bits `n … 127`. -/
def clearBits (netmask : List UInt8) (n : ℕ) : List UInt8 :=
  (List.range' n (128 - n)).foldl
    (fun mask i => mask.modify (i >>> 3) (· &&& ~~~(1 <<< UInt8.ofNat (i &&& 7)))) netmask

/-- The constructor from a text. -/
def ofString (R : Resolver) (strSubnet : List Char) : CSubNet :=
  let (strAddress, slash) := splitSlash strSubnet
  -- default to /32 (IPv4) or /128 (IPv6), i.e. match single address
  let netmask := replicate 16 255
  match lookupHost R strAddress with
  | none => ⟨0, netmask, false⟩
  | some network =>
    match slash with
    | none => ⟨network, netmask, true⟩
    | some strNetmask =>
      -- IPv4 addresses start at offset 12
      let noffset : ℕ := if NetAddr.isIPv4 network then 12 * 8 else 0
      match parseInt32 strNetmask with
      | some n =>
        if 0 ≤ n ∧ n ≤ 128 - noffset then ⟨network, clearBits netmask (n.toNat + noffset), true⟩
        else ⟨network, netmask, false⟩
      | none =>
        match lookupHost R strNetmask with
        | some mask =>
          let asize := if NetAddr.isIPv4 network then 4 else 16
          ⟨network, netmask.take (16 - asize) ++ (ipBytes mask).drop (16 - asize), true⟩
        | none => ⟨network, netmask, false⟩

/-- The subnet that `Ban` and `Unban` make of an address. -/
def ofAddr (R : Resolver) (a : CNetAddr) : CSubNet :=
  ofString R (toStringIP R a ++ if NetAddr.isIPv4 a then ['/', '3', '2'] else ['/', '1', '2', '8'])

/-- `Match`. -/
def matchAddr (subNet : CSubNet) (a : CNetAddr) : Bool :=
  if !subNet.valid || !NetAddr.isValid a then false
  else (List.range 16).all fun x =>
    NetAddr.getByte a x &&& subNet.netmask.getD (15 - x) 0 == NetAddr.getByte subNet.network x

end CSubNet

theorem length_drop_six (a : CNetAddr) : ((ipBytes a).drop 6).length = 10 := by
  rw [length_drop, length_ipBytes]

theorem length_encodeBase32_pos (h : b.length ≠ 0) : 0 < (encodeBase32 b).length := by
  match b, h with
  | c :: rest, _ => simp [encodeBase32, Base32.encodeWith, Base32.encodeLoop]

theorem setSpecial_onion (h : b.length = 10) :
    setSpecial (encodeBase32 b ++ ['.', 'o', 'n', 'i', 'o', 'n']) =
    some (ofIpBytes (pchOnionCat ++ b)) := by
  have hne := length_encodeBase32_pos (b := b) (by omega)
  unfold setSpecial
  dsimp only
  have hlen : (encodeBase32 b ++ ['.', 'o', 'n', 'i', 'o', 'n']).length - 6 =
    (encodeBase32 b).length := by
    simp
  rw [hlen, drop_left, take_left, if_pos ⟨by simp; omega, rfl⟩,
    decodeBase32_encodeBase32, if_neg (by simp [h, pchOnionCat])]

theorem setSpecial_i2p (h : b.length = 10) :
    setSpecial (encodeBase32 b ++ ['.', 'o', 'c', '.', 'b', '3', '2', '.', 'i', '2', 'p']) =
      some (ofIpBytes (pchOnionCat ++ b)) := by
  have hne := length_encodeBase32_pos (b := b) (by omega)
  unfold setSpecial
  dsimp only
  have hlen : (encodeBase32 b ++ ['.', 'o', 'c', '.', 'b', '3', '2', '.', 'i', '2', 'p']).length =
      (encodeBase32 b).length + 11 := by simp
  have hdrop : (encodeBase32 b ++ ['.', 'o', 'c', '.', 'b', '3', '2', '.', 'i', '2', 'p']).drop
      ((encodeBase32 b).length + 11 - 6) = ['3', '2', '.', 'i', '2', 'p'] := by
    rw [show (encodeBase32 b).length + 11 - 6 =
      (encodeBase32 b).length + 5 by omega, ← drop_drop, drop_left]
    rfl
  rw [hlen, hdrop, if_neg (by simp), Nat.add_sub_cancel, drop_left, take_left,
    if_pos ⟨by omega, rfl⟩, decodeBase32_encodeBase32, if_neg (by simp [h, pchGarliCat])]

theorem setSpecial_numeric {text : List Char} (h : ∀ c ∈ text, numericChar c = true) :
    setSpecial text = none := by
  have hdrop (n : ℕ) (c : Char) (rest front : List Char) (hc : numericChar c = false)
      (hend : text.drop n = front ++ c :: rest) : False := by
    have hmem : c ∈ text := mem_of_mem_drop (by rw [hend]; simp)
    rw [h c hmem] at hc
    cases hc
  unfold setSpecial
  rw [if_neg fun hs => hdrop _ 'o' ['n', 'i', 'o', 'n'] ['.'] (by decide) hs.2,
    if_neg fun hs => hdrop _ 'o' ['c', '.', 'b', '3', '2', '.', 'i', '2', 'p'] ['.']
    (by decide) hs.2]

/-! ### Reading back what was written -/

theorem lookupHost_eq {R : Resolver} {c : Char} {text : List Char} (hc : c ≠ '[') :
    lookupHost R (c :: text) = lookupIntern R (c :: text) := by
  unfold lookupHost
  rw [if_neg (cons_ne_nil c text), if_neg]
  rintro ⟨hhead, -⟩
  exact hc (Option.some.inj hhead)

theorem pbase32_ne_bracket (v : ℕ) : pbase32.getD v '=' ≠ '[' := by
  have hletters : ∀ v < 32, pbase32.getD v '=' ≠ '[' := by decide
  by_cases hv : v < 32
  · exact hletters v hv
  · rw [getD_eq_default _ _ (by simpa [pbase32] using hv)]
    decide

theorem encodeBase32_eq_cons (h : b.length = 10) :
    ∃ c rest, encodeBase32 b = c :: rest ∧ c ≠ '[' := by
  match b, h with
  | b0 :: rest, _ => exact ⟨_, _, rfl, pbase32_ne_bracket _⟩

/-- The Tor address with the same ten bytes. -/
def onionTwin (a : CNetAddr) : CNetAddr := ofIpBytes (pchOnionCat ++ (ipBytes a).drop 6)

variable {a : CNetAddr}

theorem onionTwin_of_isTor (h : NetAddr.isTor a = true) : onionTwin a = a := by
  have htake : (ipBytes a).take 6 = pchOnionCat := by simpa [NetAddr.isTor] using h
  rw [onionTwin, ← htake, take_append_drop, ofIpBytes_ipBytes]

theorem ipBytes_onionTwin (a : CNetAddr) : ipBytes (onionTwin a) = pchOnionCat ++
    (ipBytes a).drop 6 :=
  ipBytes_ofIpBytes (by rw [length_append, length_drop_six]; rfl)

theorem isTor_onionTwin (a : CNetAddr) : NetAddr.isTor (onionTwin a) = true := by
  rw [NetAddr.isTor, ipBytes_onionTwin]
  rfl

theorem isI2P_of_isTor (h : NetAddr.isTor a = true) : NetAddr.isI2P a = false := by
  have htake : (ipBytes a).take 6 = pchOnionCat := by simpa [NetAddr.isTor] using h
  rw [NetAddr.isI2P, htake]
  rfl

theorem isTor_of_isI2P (h : NetAddr.isI2P a = true) : NetAddr.isTor a = false := by
  cases ht : NetAddr.isTor a with
  | false => rfl
  | true => exact absurd (h.symm.trans (isI2P_of_isTor ht)) (by decide)

theorem onionTwin_ne (h : NetAddr.isI2P a = true) : onionTwin a ≠ a := fun heq =>
  absurd ((isTor_onionTwin a).symm.trans ((congrArg NetAddr.isTor heq).trans (isTor_of_isI2P h)))
    (by decide)

theorem getSockAddr_spec (htor : NetAddr.isTor a = false)
    (hi2p : NetAddr.isI2P a = false) : ∃ sa, getSockAddr a = some sa ∧ sa.Ok ∧
    ofSockAddr sa = a := by
  unfold getSockAddr
  cases h4 : NetAddr.isIPv4 a with
  | true =>
    have htake : (ipBytes a).take 12 = pchIPv4 := by simpa [NetAddr.isIPv4] using h4
    refine ⟨_, if_pos rfl, ?_, ?_⟩
    · simp [SockAddr.Ok, length_ipBytes]
    · rw [ofSockAddr, ← htake, take_append_drop, ofIpBytes_ipBytes]
  | false =>
    have h6 : NetAddr.isIPv6 a = true := by simp [NetAddr.isIPv6, h4, htor, hi2p]
    refine ⟨_, (if_neg Bool.false_ne_true).trans (if_pos h6), length_ipBytes a, ofIpBytes_ipBytes a⟩

/-- **The text of an address that is not an I2P address is read back as the address**. -/
theorem lookupHost_toString {R : Resolver} (hR : R.Numeric)
    (h : NetAddr.isI2P a = false) : lookupHost R (toStringIP R a) = some a := by
  unfold toStringIP
  cases htor : NetAddr.isTor a with
  | true =>
    rw [if_pos rfl]
    obtain ⟨c, rest, hc, hne⟩ := encodeBase32_eq_cons (length_drop_six a)
    have hspecial := setSpecial_onion (length_drop_six a)
    rw [hc, cons_append] at hspecial ⊢
    rw [lookupHost_eq hne, lookupIntern, hspecial]
    exact congrArg some (onionTwin_of_isTor htor)
  | false =>
    rw [if_neg Bool.false_ne_true, if_neg (by rw [h]; exact Bool.false_ne_true)]
    obtain ⟨sa, hsa, hok, ha⟩ := getSockAddr_spec htor h
    obtain ⟨text, hname, hinfo, hne, hnumeric⟩ := hR.inverse sa hok
    rw [hsa, Option.bind_some, hname]
    match text, hne, hnumeric with
    | c :: text, _, hnumeric =>
      have hc : c ≠ '[' := by
        rintro rfl
        exact absurd (hnumeric '[' mem_cons_self) (by decide)
      rw [lookupHost_eq hc, lookupIntern, setSpecial_numeric hnumeric, hinfo]
      exact congrArg some ha

theorem lookupHost_toString_i2p (R : Resolver) (h : NetAddr.isI2P a = true) :
    lookupHost R (toStringIP R a) = some (onionTwin a) := by
  unfold toStringIP
  rw [if_neg (by rw [isTor_of_isI2P h]; exact Bool.false_ne_true), if_pos h]
  obtain ⟨c, rest, hc, hne⟩ := encodeBase32_eq_cons (length_drop_six a)
  have hspecial := setSpecial_i2p (length_drop_six a)
  rw [hc, cons_append] at hspecial ⊢
  rw [lookupHost_eq hne, lookupIntern, hspecial]
  rfl

theorem lookupHost_toString_iff {R : Resolver} (hR : R.Numeric) (a : CNetAddr) :
    lookupHost R (toStringIP R a) = some a ↔ NetAddr.isI2P a = false := by
  constructor
  · intro hlookup
    cases h : NetAddr.isI2P a with
    | false => rfl
    | true =>
      rw [lookupHost_toString_i2p R h] at hlookup
      exact absurd (Option.some.inj hlookup) (onionTwin_ne h)
  · exact lookupHost_toString hR

/-! ### The subnet of one address -/

namespace CSubNet

/-- The subnet that holds an address alone. -/
def single (a : CNetAddr) : CSubNet := ⟨a, replicate 16 255, true⟩

theorem splitSlash_append {s t : List Char} (ht : '/' ∉ t) :
    splitSlash (s ++ '/' :: t) = (s, some t) := by
  have hmem : ∀ c ∈ t.reverse, decide (c ≠ '/') = true := fun c hc =>
    decide_eq_true fun heq => ht (mem_reverse.1 (heq ▸ hc))
  have hrev : (s ++ '/' :: t).reverse = t.reverse ++ '/' :: s.reverse := by simp
  unfold splitSlash
  rw [hrev, dropWhile_append_of_pos hmem, dropWhile_cons_of_neg (by simp),
    takeWhile_append_of_pos hmem, takeWhile_cons_of_neg (by simp)]
  simp

/-- With the whole length of an address as its prefix a subnet holds this address alone. -/
theorem ofString_single {R : Resolver} {text : List Char} {a : CNetAddr} (v4 : Bool)
    (ha : lookupHost R text = some a) (hv4 : NetAddr.isIPv4 a = v4) :
    ofString R (text ++ if v4 then ['/', '3', '2'] else ['/', '1', '2', '8']) = single a := by
  unfold ofString
  cases v4 with
  | true =>
    have hsplit : splitSlash (text ++ if true = true then ['/', '3', '2'] else
      ['/', '1', '2', '8']) = (text, some ['3', '2']) := splitSlash_append (by decide)
    have hparse : parseInt32 ['3', '2'] = some 32 := by decide
    rw [hsplit]
    dsimp only
    rw [ha]
    dsimp only
    rw [hparse, hv4]
    rfl
  | false =>
    have hsplit : splitSlash (text ++ if false = true then ['/', '3', '2'] else
      ['/', '1', '2', '8']) = (text, some ['1', '2', '8']) := splitSlash_append (by decide)
    have hparse : parseInt32 ['1', '2', '8'] = some 128 := by decide
    rw [hsplit]
    dsimp only
    rw [ha]
    dsimp only
    rw [hparse, hv4]
    rfl

theorem ofAddr_eq {R : Resolver} (hR : R.Numeric) {a : CNetAddr} (h : NetAddr.isI2P a = false) :
    ofAddr R a = single a :=
  ofString_single _ (lookupHost_toString hR h) rfl

/-- The subnet of one address matches this address alone. -/
theorem matchAddr_single {a b : CNetAddr} :
    (single a).matchAddr b = true ↔ NetAddr.isValid b = true ∧ b = a := by
  have hmask : ∀ i < 16, (single a).netmask.getD i 0 = -1 := by
    change ∀ i < 16, (replicate 16 (255 : UInt8)).getD i 0 = -1
    decide
  have hbytes : ((List.range 16).all fun x =>
      NetAddr.getByte b x &&& (single a).netmask.getD (15 - x) 0 == NetAddr.getByte a x) =
        true ↔ b = a := by
    rw [all_eq_true]
    constructor
    · intro h
      refine ipBytes_injective
        (ext_getElem ((length_ipBytes b).trans (length_ipBytes a).symm) ?_)
      intro i hb ha
      have hi := hb
      rw [length_ipBytes] at hi
      have hx := beq_iff_eq.1 (h (15 - i) (mem_range.2 (by omega)))
      rw [hmask _ (by omega), UInt8.and_neg_one, NetAddr.getByte, NetAddr.getByte,
        show 15 - (15 - i) = i by omega, getD_eq_getElem _ _ hb, getD_eq_getElem _ _ ha] at hx
      exact hx
    · rintro rfl x -
      rw [hmask _ (by omega), UInt8.and_neg_one]
      exact beq_self_eq_true _
  unfold matchAddr
  cases hv : NetAddr.isValid b with
  | false => simp
  | true => simpa [single] using hbytes

end CSubNet

end Espers
