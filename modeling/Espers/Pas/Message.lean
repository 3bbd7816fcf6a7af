import Espers.Core.Codec

/-!
# The election entries of alias services

A `pasee` message carries an entry of the list of alias services (`pasman.cpp`).  It is written in
three places: by `RelayPubkeyaliasserviceEntry`, and twice by the replies to `pasg`.  The relay
writes the fields in the order in which the handler reads them; the replies put the public key and a
running number before the registration time.

A public key is a buffer of 65 bytes of which the first byte tells how many count.  The handler
reads into a buffer that has been marked as invalid in its first byte only, so that a key shorter
than its first byte tells leaves bytes in it that nobody wrote: `junk`.

* `readPasee_eq_some` : what the handler reads, byte by byte.
* `Coincides` : the fields with which the reply to `pasg` is read as it was written.
* `pasee_decodes_iff` : **when an entry is read as it was written**: from the relay, but for keys
  that are not one; from a reply with such fields only, none of which a list of `2 ^ 24` entries
  has.
-/

namespace Espers

open Wire List Option Prod

/-! ### Public keys -/

/-- A public key. -/
structure CPubKey where
  vch : List UInt8
  length_vch : vch.length = 65
  deriving DecidableEq, Repr

namespace CPubKey

/-- `GetLen`. -/
def getLen (chHeader : UInt8) : ℕ :=
  if chHeader = 2 ∨ chHeader = 3 then 33
  else if chHeader = 4 ∨ chHeader = 6 ∨ chHeader = 7 then 65
  else 0

/-- `vch[0]`. -/
def header (k : CPubKey) : UInt8 := k.vch.headD 0

/-- `size()`. -/
def size (k : CPubKey) : ℕ := getLen k.header

/-- The bytes from `begin()` to `end()`. -/
def data (k : CPubKey) : List UInt8 := k.vch.take k.size

/-- `IsValid()`. -/
def isValid (k : CPubKey) : Bool := k.size > 0

/-- `operator==`. -/
def same (a b : CPubKey) : Bool := a.header == b.header && a.vch.take a.size == b.vch.take a.size

/-- `Invalidate()`. -/
def invalidate (k : CPubKey) : CPubKey :=
  ⟨0xFF :: k.vch.tail, by rw [length_cons, length_tail, k.length_vch]⟩

/-- `Serialize`. -/
def write (k : CPubKey) : List UInt8 := writeVector k.data

/-- The buffer after `x` has been read into it. -/
def fill (k : CPubKey) (x : List UInt8) : CPubKey :=
  if h : x.length ≤ 65 then
    ⟨x ++ k.vch.drop x.length, by rw [length_append, length_drop, k.length_vch]; omega⟩
  else
    -- the bytes are skipped
    k.invalidate

/-- `Unserialize`, into a key that has been constructed in a buffer with the bytes `junk`. -/
def read (junk : CPubKey) : Reader CPubKey := fun b =>
  (readVector maxSize b).map fun x => (junk.invalidate.fill x.1, x.2)

end CPubKey

/-! ### The message -/

/-- The fields of a `pasee` message. -/
structure Pasee where
  vin : CTxIn
  fits : vin.Fits
  /-- An `int64_t`. -/
  regTime : BitVec 64
  pubkey : CPubKey
  /-- An `int`. -/
  count : BitVec 32
  /-- An `int`. -/
  protocolVersion : BitVec 32

/-- An input is read field by field. -/
def CTxIn.read : Reader {vin : CTxIn // vin.Fits} := fun b => do
  let (hash, b) ← readBits 256 32 b
  let (n, b) ← readBits 32 4 b
  let (scriptSig, b) ← readVector maxSize b
  let (nSequence, b) ← readBits 32 4 b
  return (⟨⟨⟨hash, n.toNat⟩, scriptSig, nSequence.toNat⟩, n.isLt, nSequence.isLt⟩, b)

/-- The `pasee` branch of `ProcessMessagePAS` up to its first test. -/
def readPasee (junk : CPubKey) : Reader Pasee := fun b => do
  let (vin, b) ← CTxIn.read b
  let (regTime, b) ← readBits 64 8 b
  let (pubkey, b) ← CPubKey.read junk b
  let (count, b) ← readBits 32 4 b
  let (protocolVersion, b) ← readBits 32 4 b
  return (⟨vin.1, vin.2, regTime, pubkey, count, protocolVersion⟩, b)

/-- The message that `RelayPubkeyaliasserviceEntry` pushes. -/
def relayBytes (m : Pasee) : List UInt8 :=
  m.vin.write ++ (writeBits 8 m.regTime ++ (m.pubkey.write ++ (writeBits 4 m.count ++
    writeBits 4 m.protocolVersion)))

/-- The message that a reply to `pasg` pushes, with the running number of the entry. -/
def pasgBytes (m : Pasee) (i : BitVec 32) : List UInt8 :=
  m.vin.write ++ (m.pubkey.write ++ (writeBits 4 m.count ++ (writeBits 4 i ++
    (writeBits 8 m.regTime ++ writeBits 4 m.protocolVersion))))

/-- The places that push a `pasee` message. -/
inductive PaseePlace where
  /-- `RelayPubkeyaliasserviceEntry`. -/
  | relay
  /-- The reply to a `pasg` for the whole list. -/
  | pasgList (i : BitVec 32)
  /-- The reply to a `pasg` for one entry. -/
  | pasgEntry (i : BitVec 32)

/-- What a place writes. -/
def PaseePlace.write : PaseePlace → Pasee → List UInt8
  | relay, m => relayBytes m
  | pasgList i, m => pasgBytes m i
  | pasgEntry i, m => pasgBytes m i

/-- What is read is what was written, whatever the buffer of the key held. -/
def DecodesAsSent (bytes : List UInt8) (m : Pasee) : Prop :=
  ∀ junk, ∃ g rest, readPasee junk bytes = some (g, rest) ∧ g.vin = m.vin ∧ g.regTime = m.regTime ∧
    g.pubkey.same m.pubkey = true ∧ g.count = m.count ∧ g.protocolVersion = m.protocolVersion

/-- A reader that gets `x` for the key ends up with `k`, whatever its buffer held: `x` begins with
the bytes of `k` that count, or leaves the buffer marked as invalid and so is `k`. -/
def CPubKey.Shows (k : CPubKey) (x : List UInt8) : Prop :=
  if 1 ≤ x.length ∧ x.length ≤ 65 then k.vch.take (max 1 k.size) <+: x else k.header = 0xFF

/-- What a reply writes between the input and the registration time: the length of the key, the key,
the count and the running number. -/
def pasgHead (m : Pasee) (i : BitVec 32) : List UInt8 :=
  m.pubkey.write ++ (writeBits 4 m.count ++ writeBits 4 i)

/-- The byte that the handler takes for the length of the key: the eighth one of the key, or the
highest one of the running number when there is no key. -/
def pasgLength (m : Pasee) (i : BitVec 32) : ℕ := ((pasgHead m i).getD 8 0).toNat

/-- The fields of a reply that is read as it was written, by coincidence.  The registration time has
the bytes of the key's length and of what follows it.  Eight bytes further on, the key goes on with
the count and the running number as it began.  The length that is read exceeds that of the key by at
most four, and the bytes as far into the registration time and the protocol version are the count
and the protocol version. -/
structure Coincides (m : Pasee) (i : BitVec 32) : Prop where
  regTime : writeBits 8 m.regTime = (pasgHead m i).take 8
  pubkey : m.pubkey.data = (pasgHead m i).drop 9
  length : m.pubkey.size ≤ pasgLength m i ∧ pasgLength m i ≤ min 65 (m.pubkey.size + 4)
  noKey : m.pubkey.size = 0 → m.pubkey.header = if pasgLength m i = 0 then 0xFF else 0
  numbers : writeBits 4 m.count ++ writeBits 4 m.protocolVersion =
    ((writeBits 8 m.regTime ++ writeBits 4 m.protocolVersion).drop
      (pasgLength m i - m.pubkey.size)).take 8

/-- The condition on the key, or on all fields, under which a place is read as it writes. -/
def PaseePlace.Legible : PaseePlace → Pasee → Prop
  | relay, m => m.pubkey.isValid = true ∨ m.pubkey.header = 0xFF
  | pasgList i, m | pasgEntry i, m => Coincides m i

/-! ### What is read -/

section Read

variable {k junk : CPubKey} {x b r : List UInt8}

theorem CPubKey.read_bind_eq_some {α : Type} {f : CPubKey × List UInt8 → Option α} {y : α} :
    (CPubKey.read junk b).bind f = some y ↔ ∃ (x r : List UInt8), x.length ≤ maxSize ∧
      b = writeVector x ++ r ∧ f (junk.invalidate.fill x, r) = some y := by
  rw [CPubKey.read, Option.bind_map]
  exact (reads_vector (by decide)).bind_eq_some

theorem reads_txIn : Wire.Reads CTxIn.read (fun vin => vin.1.write)
    (fun vin => vin.1.scriptSig.length ≤ maxSize) := by
  rintro b ⟨vin, hn, hseq⟩ r
  have hhash := reads_bits (w := 256) (k := 32) (by decide)
  have hint := reads_bits (w := 32) (k := 4) (by decide)
  have hscript : Wire.Reads (readVector maxSize) writeVector _ := reads_vector (by decide)
  simp only [CTxIn.read, bind_eq_bind, hhash.bind_eq_some, hint.bind_eq_some,
    hscript.bind_eq_some, Option.pure_def, some.injEq, Prod.mk.injEq, Subtype.mk.injEq]
  constructor
  · rintro ⟨hash, b1, -, rfl, n, b2, -, rfl, scriptSig, b3, hle, rfl, nSequence, b4, -, rfl, rfl,
      rfl⟩
    exact ⟨hle, by simp [CTxIn.write, writeBits]⟩
  · rintro ⟨hle, rfl⟩
    have hn' : (BitVec.ofNat 32 vin.prevout.n).toNat = vin.prevout.n := Nat.mod_eq_of_lt hn
    have hseq' : (BitVec.ofNat 32 vin.nSequence).toNat = vin.nSequence := Nat.mod_eq_of_lt hseq
    refine ⟨vin.prevout.hash, _, trivial, ?_, .ofNat 32 vin.prevout.n, _, trivial, rfl,
      vin.scriptSig, _, hle, rfl, .ofNat 32 vin.nSequence, r, trivial, rfl, ?_, rfl⟩
    · simp [CTxIn.write, writeBits, hn', hseq']
    · simp [hn', hseq']

/-- **What the handler reads.** -/
theorem readPasee_eq_some {g : Pasee} : readPasee junk b = some (g, r) ↔
    g.vin.scriptSig.length ≤ maxSize ∧ ∃ x : List UInt8, x.length ≤ maxSize ∧
      g.pubkey = junk.invalidate.fill x ∧
      b = g.vin.write ++ (writeBits 8 g.regTime ++ (writeVector x ++ (writeBits 4 g.count ++
        (writeBits 4 g.protocolVersion ++ r)))) := by
  have htime := reads_bits (w := 64) (k := 8) (by decide)
  have hint := reads_bits (w := 32) (k := 4) (by decide)
  simp only [readPasee, Option.bind_eq_bind, reads_txIn.bind_eq_some, htime.bind_eq_some,
    CPubKey.read_bind_eq_some, hint.bind_eq_some, Option.pure_def, some.injEq, Prod.mk.injEq]
  constructor
  · rintro ⟨vin, b1, hle, rfl, regTime, b2, -, rfl, x, b3, hx, rfl, count, b4, -, rfl, version, b5,
      -, rfl, rfl, rfl⟩
    exact ⟨hle, x, hx, rfl, rfl⟩
  · rintro ⟨hle, x, hx, hkey, rfl⟩
    exact ⟨⟨g.vin, g.fits⟩, _, hle, rfl, g.regTime, _, trivial, rfl, x, _, hx, rfl, g.count, _,
      trivial, rfl, g.protocolVersion, r, trivial, rfl, by rw [← hkey], rfl⟩

/-! ### The key that is read -/

theorem CPubKey.exists_vch (k : CPubKey) : ∃ c cs, k.vch = c :: cs ∧ cs.length = 64 ∧
    k.header = c := by
  obtain ⟨vch, hlen⟩ := k
  cases vch with
  | nil => cases hlen
  | cons c cs => exact ⟨c, cs, rfl, Nat.succ.inj hlen, rfl⟩

theorem CPubKey.getLen_le (c : UInt8) : getLen c ≤ 65 := by
  unfold getLen
  split_ifs <;> omega

/-- Two keys are the same if they agree in the first byte and in the bytes that count. -/
theorem CPubKey.same_iff {a : CPubKey} :
    a.same k = true ↔ a.vch.take (max 1 k.size) = k.vch.take (max 1 k.size) := by
  obtain ⟨c, cs, hc, -, hac⟩ := a.exists_vch
  obtain ⟨d, ds, hd, -, hkd⟩ := k.exists_vch
  rw [same, Bool.and_eq_true, beq_iff_eq, beq_iff_eq, size, size, hc, hd, hac, hkd]
  constructor
  · rintro ⟨rfl, htake⟩
    rcases Nat.eq_zero_or_pos (getLen c) with h0 | hpos
    · simp [h0]
    · rwa [max_eq_right hpos]
  · intro htake
    have hcd : c = d := by
      have hmax : max 1 (getLen d) = max 1 (getLen d) - 1 + 1 := by omega
      rw [hmax, take_succ_cons, take_succ_cons] at htake
      exact (cons.inj htake).1
    subst hcd
    refine ⟨rfl, ?_⟩
    rcases Nat.eq_zero_or_pos (getLen c) with h0 | hpos
    · simp [h0]
    · rwa [max_eq_right hpos] at htake

theorem CPubKey.invalidate_same : junk.invalidate.same k = true ↔ k.header = 0xFF := by
  obtain ⟨d, ds, hd, -, hkd⟩ := k.exists_vch
  have hh : junk.invalidate.header = 0xFF := rfl
  rw [same, Bool.and_eq_true, beq_iff_eq, beq_iff_eq, size, hh, hkd]
  constructor
  · exact fun h => h.1.symm
  · rintro rfl
    have h0 : getLen 255 = 0 := by decide
    exact ⟨rfl, by rw [h0, take_zero, take_zero]⟩

/-- **The key that is read is `k`, whatever the buffer held, exactly if the bytes show `k`.** -/
theorem CPubKey.fill_same_iff :
    (∀ junk : CPubKey, (junk.invalidate.fill x).same k = true) ↔ k.Shows x := by
  unfold Shows
  by_cases hx : 1 ≤ x.length ∧ x.length ≤ 65
  · obtain ⟨h1, h65⟩ := hx
    have hvch : ∀ junk : CPubKey, (junk.invalidate.fill x).vch = x ++
      junk.invalidate.vch.drop x.length := by
      intro junk
      rw [fill, dif_pos h65]
    rw [if_pos ⟨h1, h65⟩]
    simp only [same_iff, hvch]
    have hlen : (k.vch.take (max 1 k.size)).length = max 1 k.size := by
      have := getLen_le k.header
      rw [length_take, k.length_vch, size]
      omega
    constructor
    · intro h
      rcases le_or_gt (max 1 k.size) x.length with hle | hlt
      · have htake := h k
        rw [take_append_of_le_length hle] at htake
        rw [← htake]
        exact take_prefix _ _
      · -- the byte behind `x` cannot be right for both of two buffers
        have hbyte : ∀ c : UInt8, (k.vch.take (max 1 k.size))[x.length]? = some c := by
          intro c
          rw [← h ⟨replicate 65 c, length_replicate⟩, getElem?_take_of_lt hlt,
            getElem?_append_right le_rfl, Nat.sub_self, getElem?_drop]
          obtain ⟨n, hn⟩ : ∃ n, x.length = n + 1 := ⟨x.length - 1, by omega⟩
          have hsize := getLen_le k.header
          have hn64 : n < 64 := by
            unfold size at hlt
            omega
          simp only [invalidate, hn, getElem?_cons_succ, tail_replicate]
          rw [getElem?_replicate, if_pos (by omega)]
        exact absurd ((hbyte 0).symm.trans (hbyte 1)) (by decide)
    · rintro ⟨y, hy⟩ junk
      rw [← hy, append_assoc, take_append_of_le_length (by omega), take_of_length_le (by omega)]
  · rw [if_neg hx]
    have hfill : ∀ junk : CPubKey, (junk.invalidate.fill x).vch = junk.invalidate.vch := by
      intro junk
      unfold fill
      split
      · rename_i h65
        obtain rfl : x = [] := length_eq_zero_iff.1 (by omega)
        rfl
      · rfl
    constructor
    · intro h
      rw [← @invalidate_same k k, same_iff, ← hfill k]
      exact same_iff.1 (h k)
    · intro h junk
      rw [same_iff, hfill junk]
      exact same_iff.1 (invalidate_same.2 h)

end Read

/-! ### When the entries are read as sent -/

/-- An entry behind its input is read as sent exactly if the bytes begin with the fields in the
order of the handler. -/
theorem decodesAsSent_iff (m : Pasee) (tail : List UInt8) :
    DecodesAsSent (m.vin.write ++ tail) m ↔ m.vin.scriptSig.length ≤ maxSize ∧
      ∃ x rest : List UInt8, x.length ≤ maxSize ∧ m.pubkey.Shows x ∧
        tail = writeBits 8 m.regTime ++ (writeVector x ++ (writeBits 4 m.count ++
          (writeBits 4 m.protocolVersion ++ rest))) := by
  have hvec : Wire.Reads (readVector maxSize) writeVector (·.length ≤ maxSize) :=
    reads_vector (by decide)
  -- what one buffer yields
  have hone : ∀ junk g rest, readPasee junk (m.vin.write ++ tail) = some (g, rest) → g.vin = m.vin →
      g.regTime = m.regTime → g.count = m.count → g.protocolVersion = m.protocolVersion →
      m.vin.scriptSig.length ≤ maxSize ∧ ∃ x : List UInt8, x.length ≤ maxSize ∧
        g.pubkey = junk.invalidate.fill x ∧
        tail = writeBits 8 m.regTime ++ (writeVector x ++ (writeBits 4 m.count ++
          (writeBits 4 m.protocolVersion ++ rest))) := by
    intro junk g rest hread hvin htime hcount hversion
    obtain ⟨hle, x, hx, hkey, hbytes⟩ := readPasee_eq_some.1 hread
    rw [hvin, htime, hcount, hversion] at hbytes
    exact ⟨hvin ▸ hle, x, hx, hkey, append_cancel_left hbytes⟩
  constructor
  · intro h
    obtain ⟨g, rest, hread, hvin, htime, -, hcount, hversion⟩ := h m.pubkey
    obtain ⟨hle, x, hx, -, htail⟩ := hone _ g rest hread hvin htime hcount hversion
    refine ⟨hle, x, rest, hx, CPubKey.fill_same_iff.1 fun junk => ?_, htail⟩
    obtain ⟨g', rest', hread', hvin', htime', hsame, hcount', hversion'⟩ := h junk
    obtain ⟨-, x', hx', hkey', htail'⟩ := hone _ g' rest' hread' hvin' htime' hcount' hversion'
    -- every buffer takes the same bytes for the key
    have heq := append_cancel_left (htail.symm.trans htail')
    have hr := hvec.write_append hx (writeBits 4 m.count ++ (writeBits 4 m.protocolVersion ++ rest))
    rw [heq, hvec.write_append hx'] at hr
    obtain rfl : x' = x := (mk.inj (some.inj hr)).1
    rw [← hkey']
    exact hsame
  · rintro ⟨hle, x, rest, hx, hshows, rfl⟩ junk
    refine ⟨{ m with pubkey := junk.invalidate.fill x }, rest, ?_, rfl, rfl,
      CPubKey.fill_same_iff.2 hshows junk, rfl, rfl⟩
    exact readPasee_eq_some.2 ⟨hle, x, hx, rfl, rfl⟩

theorem CPubKey.length_data (k : CPubKey) : k.data.length = k.size := by
  have hle := getLen_le k.header
  rw [data, length_take, k.length_vch, size]
  omega

theorem CPubKey.shows_data {k : CPubKey} : k.Shows k.data ↔ k.isValid = true ∨ k.header = 0xFF := by
  have hle : k.size ≤ 65 := getLen_le k.header
  rw [Shows, k.length_data, isValid, decide_eq_true_iff]
  rcases Nat.eq_zero_or_pos k.size with h0 | hpos
  · rw [h0, if_neg (by omega)]
    simp
  · rw [if_pos ⟨hpos, hle⟩, max_eq_right hpos]
    exact ⟨fun _ => .inl hpos, fun _ => prefix_rfl⟩

/-- The relay writes in the order of the handler. -/
theorem relay_decodes_iff (m : Pasee) : DecodesAsSent (relayBytes m) m ↔
    m.vin.scriptSig.length ≤ maxSize ∧ (m.pubkey.isValid = true ∨ m.pubkey.header = 0xFF) := by
  rw [relayBytes, decodesAsSent_iff, ← CPubKey.shows_data]
  refine and_congr_right fun _ => ?_
  have hvec : Wire.Reads (readVector maxSize) writeVector (·.length ≤ maxSize) :=
    reads_vector (by decide)
  have hdata : m.pubkey.data.length ≤ maxSize := by
    rw [CPubKey.length_data]
    exact (CPubKey.getLen_le _).trans (by decide)
  constructor
  · rintro ⟨x, rest, hx, hshows, heq⟩
    have hr := hvec.write_append hdata (writeBits 4 m.count ++ writeBits 4 m.protocolVersion)
    have hkey : m.pubkey.write = writeVector m.pubkey.data := rfl
    rw [← hkey, append_cancel_left heq, hvec.write_append hx] at hr
    obtain rfl : x = m.pubkey.data := (mk.inj (some.inj hr)).1
    exact hshows
  · intro hshows
    exact ⟨m.pubkey.data, [], hdata, hshows, by rw [append_nil]; rfl⟩

/-! ### The replies to `pasg` -/

section Reply

variable {m : Pasee} {i : BitVec 32}

theorem CPubKey.write_eq (k : CPubKey) : k.write = UInt8.ofNat k.size :: k.data := by
  have hlt : k.size < 253 := (getLen_le k.header).trans_lt (by decide)
  rw [write, writeVector, k.length_data, writeCompactSize, if_pos hlt, singleton_append]

theorem length_pasgHead : (pasgHead m i).length = m.pubkey.size + 9 := by
  rw [pasgHead, CPubKey.write_eq, length_append, length_cons, CPubKey.length_data, length_append,
    writeBits, writeBits, length_bytesLE, length_bytesLE]

theorem pasgHead_drop_eight :
    (pasgHead m i).drop 8 = (pasgHead m i).getD 8 0 :: (pasgHead m i).drop 9 := by
  have hlt : 8 < (pasgHead m i).length := by
    rw [length_pasgHead]
    omega
  rw [drop_eq_getElem_cons hlt, getD_eq_getElem?_getD, getElem?_eq_getElem hlt, getD_some]

theorem length_pasgHead_drop : ((pasgHead m i).drop 9).length = m.pubkey.size := by
  rw [length_drop, length_pasgHead]
  omega

/-- The length that the handler reads is that one byte: a longer form would be longer than what is
left of the message. -/
theorem length_of_pasg {c : UInt8} {a x tail : List UInt8} (ha : a.length < 253)
    (h : c :: a = writeVector x ++ tail) : x.length = c.toNat ∧ a = x ++ tail := by
  rw [writeVector, append_assoc, cons_eq_writeCompactSize] at h
  have hlong : ∀ n l, 253 ≤ x.length → a ≠ bytesLE n l ++ (x ++ tail) := by
    rintro n l hx rfl
    simp only [length_append] at ha
    omega
  rcases h with ⟨-, hlen, heq⟩ | ⟨-, hx, -, heq⟩ | ⟨-, hx, -, heq⟩ | ⟨-, hx, heq⟩
  · exact ⟨hlen, heq⟩
  · exact absurd heq (hlong 2 _ hx)
  · exact absurd heq (hlong 4 _ (by omega))
  · exact absurd heq (hlong 8 _ (by omega))

/-- What a text of at most 65 bytes shows, by the key. -/
theorem CPubKey.shows_iff {k : CPubKey} {x : List UInt8} (hx : x.length ≤ 65) :
    k.Shows x ↔ if 0 < k.size then k.data <+: x
      else if x = [] then k.header = 0xFF else [k.header] <+: x := by
  obtain ⟨c, cs, hc, -, hkc⟩ := k.exists_vch
  have hle : k.size ≤ 65 := getLen_le k.header
  rw [Shows]
  rcases Nat.eq_zero_or_pos k.size with h0 | hpos
  · rw [h0, if_neg (lt_irrefl 0), hc, hkc]
    by_cases hnil : x = []
    · rw [if_pos hnil, hnil]
      rfl
    · rw [if_neg hnil, if_pos ⟨length_pos_iff.2 hnil, hx⟩]
      rfl
  · rw [if_pos hpos, max_eq_right hpos, ← data]
    by_cases hnil : x = []
    · subst hnil
      have hdata : k.data ≠ [] := fun h => by
        have := k.length_data
        rw [h, length_nil] at this
        omega
      have hff : k.header ≠ 0xFF := by
        intro h
        have hsize : k.size = 0 := by
          rw [size, h]
          rfl
        omega
      rw [prefix_nil]
      exact ⟨fun h => absurd h hff, fun h => absurd h hdata⟩
    · rw [if_pos ⟨length_pos_iff.2 hnil, hx⟩]

/-- Without a key the message goes on with a zero. -/
theorem regTime_head (htime : writeBits 8 m.regTime = (pasgHead m i).take 8)
    (h0 : m.pubkey.size = 0) : ∃ t, writeBits 8 m.regTime = 0 :: t := by
  rw [htime, pasgHead, CPubKey.write_eq, h0, cons_append, take_succ_cons]
  exact ⟨_, rfl⟩

theorem Coincides.of_eq {x rest : List UInt8} (hshows : m.pubkey.Shows x)
    (heq : pasgHead m i ++ (writeBits 8 m.regTime ++ writeBits 4 m.protocolVersion) =
      writeBits 8 m.regTime ++ (writeVector x ++ (writeBits 4 m.count ++
        (writeBits 4 m.protocolVersion ++ rest)))) : Coincides m i := by
  have hbits : (writeBits 8 m.regTime).length = 8 := length_bytesLE 8 _
  have hint : ∀ n : BitVec 32, (writeBits 4 n).length = 4 := fun n => length_bytesLE 4 _
  have hkey := length_pasgHead_drop (m := m) (i := i)
  have hsize : m.pubkey.size ≤ 65 := CPubKey.getLen_le _
  have htake : ((pasgHead m i).take 8).length = (writeBits 8 m.regTime).length := by
    rw [length_take, length_pasgHead, hbits]
    omega
  rw [← take_append_drop 8 (pasgHead m i), append_assoc, pasgHead_drop_eight, cons_append] at heq
  obtain ⟨htime, htail⟩ := append_inj heq htake
  obtain ⟨hlen, hbody⟩ := length_of_pasg (by
    rw [length_append, hkey, length_append, hbits, hint]
    omega) htail
  have hlen' : x.length = pasgLength m i := hlen
  have hlong := congrArg List.length hbody
  simp only [length_append, hkey, hbits, hint] at hlong
  have hle65 : x.length ≤ 65 := by
    by_contra hgt
    rw [CPubKey.Shows, if_neg (fun h => hgt h.2)] at hshows
    have h0 : m.pubkey.size = 0 := by
      rw [CPubKey.size, hshows]
      rfl
    omega
  rw [CPubKey.shows_iff hle65] at hshows
  have hdata := m.pubkey.length_data
  have hpubkey : m.pubkey.size ≤ x.length ∧ m.pubkey.data = (pasgHead m i).drop 9 := by
    rcases Nat.eq_zero_or_pos m.pubkey.size with h0 | hpos
    · rw [length_eq_zero_iff.1 (hdata.trans h0), length_eq_zero_iff.1 (hkey.trans h0)]
      exact ⟨by omega, rfl⟩
    · rw [if_pos hpos] at hshows
      refine ⟨hdata ▸ hshows.length_le, ?_⟩
      have hpre : m.pubkey.data <+: (pasgHead m i).drop 9 ++
          (writeBits 8 m.regTime ++ writeBits 4 m.protocolVersion) :=
        hbody ▸ hshows.trans (prefix_append _ _)
      have hlenkey := hdata.trans hkey.symm
      exact (prefix_of_prefix_length_le hpre (prefix_append _ _) hlenkey.le).eq_of_length hlenkey
  refine ⟨htime.symm, hpubkey.2, by omega, fun h0 => ?_, ?_⟩
  · rw [if_neg (show ¬0 < m.pubkey.size by omega)] at hshows
    rw [← hlen']
    by_cases hnil : x = []
    · rw [if_pos hnil] at hshows
      rw [hshows, hnil, length_nil, if_pos rfl]
    · rw [if_neg hnil] at hshows
      obtain ⟨t, ht⟩ := regTime_head htime.symm h0
      obtain ⟨y, hy⟩ := hshows
      rw [length_eq_zero_iff.1 (hkey.trans h0), nil_append, ht, ← hy] at hbody
      rw [if_neg fun hzero => hnil (length_eq_zero_iff.1 hzero)]
      exact (cons.inj hbody).1.symm
  · have hdrop := congrArg (List.drop x.length) hbody
    rw [drop_append, drop_of_length_le (by omega), nil_append, hkey, drop_left' rfl, hlen'] at hdrop
    rw [hdrop, ← append_assoc, take_left' (by rw [length_append, hint, hint])]

/-- **A reply is in the order of the handler exactly if its fields coincide.** -/
theorem coincides_iff : (∃ x rest : List UInt8, x.length ≤ maxSize ∧ m.pubkey.Shows x ∧
    pasgHead m i ++ (writeBits 8 m.regTime ++ writeBits 4 m.protocolVersion) =
      writeBits 8 m.regTime ++ (writeVector x ++ (writeBits 4 m.count ++
        (writeBits 4 m.protocolVersion ++ rest)))) ↔ Coincides m i := by
  refine ⟨fun ⟨x, rest, _, hshows, heq⟩ => .of_eq hshows heq, fun h => ?_⟩
  have hbits : (writeBits 8 m.regTime).length = 8 := length_bytesLE 8 _
  have hint : ∀ n : BitVec 32, (writeBits 4 n).length = 4 := fun n => length_bytesLE 4 _
  have hdata := m.pubkey.length_data
  obtain ⟨hsize, hlen⟩ := h.length
  generalize hR : writeBits 8 m.regTime ++ writeBits 4 m.protocolVersion = R at *
  generalize hd : pasgLength m i - m.pubkey.size = d at *
  have hlenR : R.length = 12 := by rw [← hR, length_append, hbits, hint]
  have hx : (m.pubkey.data ++ R.take d).length = pasgLength m i := by
    rw [length_append, hdata, length_take, hlenR]
    omega
  refine ⟨m.pubkey.data ++ R.take d, (R.drop d).drop 8, ?_, ?_, ?_⟩
  · rw [hx]
    exact (hlen.trans (min_le_left _ _)).trans (by decide)
  · rw [CPubKey.shows_iff (by omega)]
    split_ifs with hpos hnil
    · exact prefix_append _ _
    · have hzero : pasgLength m i = 0 := by rw [← hx, hnil, length_nil]
      rw [h.noKey (by omega), if_pos hzero]
    · have h0 : m.pubkey.size = 0 := by omega
      obtain ⟨t, ht⟩ := regTime_head h.regTime h0
      have hne : pasgLength m i ≠ 0 := fun hzero => hnil (length_eq_zero_iff.1 (hx.trans hzero))
      rw [h.noKey h0, if_neg hne, length_eq_zero_iff.1 (hdata.trans h0), nil_append, ← hR, ht]
      obtain ⟨n, rfl⟩ : ∃ n, d = n + 1 := ⟨d - 1, by omega⟩
      exact ⟨_, rfl⟩
  · have hbyte : writeVector (m.pubkey.data ++ R.take d) =
        (pasgHead m i).getD 8 0 :: (m.pubkey.data ++ R.take d) := by
      rw [writeVector, hx, writeCompactSize, if_pos (by omega), singleton_append, pasgLength,
        UInt8.ofNat_toNat]
    have hnumbers := h.numbers
    rw [hR, hd] at hnumbers
    rw [hbyte, cons_append, append_assoc, ← append_assoc (writeBits 4 m.count), hnumbers,
      take_append_drop, take_append_drop, h.pubkey, h.regTime, ← cons_append,
      ← pasgHead_drop_eight, ← append_assoc, take_append_drop]

/-- A text that goes on as it began, `p` further, has the same byte at all distances of `p`. -/
theorem getElem?_of_drop_prefix {l : List UInt8} {p : ℕ} (h : l.drop p <+: l) {q : ℕ}
    (hq : p * q < l.length) : l[p * q]? = l[0]? := by
  induction q with
  | zero => rfl
  | succ q ih =>
    rw [Nat.mul_succ] at hq ⊢
    have hlt : p * q < (l.drop p).length := by
      rw [length_drop]
      omega
    rw [← ih (by omega), add_comm, ← getElem?_drop, getElem?_eq_getElem hlt,
      getElem?_eq_getElem (by omega), h.getElem hlt]

theorem eq_zero_of_shifted {l v r : List UInt8} (hl : l.length = 4)
    (h : l ++ v = (0 :: (l ++ r)).take 8) : l = [0, 0, 0, 0] := by
  obtain ⟨a, b, c, d, rfl⟩ := length_eq_four.1 hl
  simp only [cons_append, nil_append, take_succ_cons, cons.injEq] at h
  obtain ⟨rfl, rfl, rfl, rfl, -⟩ := h
  rfl

/-- **The fields of no entry of a list of `2 ^ 24` entries coincide.** -/
theorem Coincides.running_number (h : Coincides m i) (hcount : m.count ≠ 0) : 2 ^ 24 ≤ i.toNat := by
  by_contra hlt
  have hi : writeBits 4 i = bytesLE 3 i.toNat ++ [0] := by
    have hzero : i.toNat / 256 / 256 / 256 = 0 := by omega
    simp only [writeBits, bytesLE, hzero, cons_append, nil_append]
    rfl
  have hdata := m.pubkey.length_data
  have hsize : m.pubkey.size = 0 ∨ m.pubkey.size = 33 ∨ m.pubkey.size = 65 := by
    unfold CPubKey.size CPubKey.getLen
    split_ifs <;> simp
  rcases Nat.eq_zero_or_pos m.pubkey.size with h0 | hpos
  · -- the count is read from zeros
    have hhead : pasgHead m i = 0 :: (writeBits 4 m.count ++ (bytesLE 3 i.toNat ++ [0])) := by
      rw [pasgHead, CPubKey.write_eq, h0, length_eq_zero_iff.1 (hdata.trans h0), hi]
      rfl
    have hlen : pasgLength m i = 0 := by
      rw [pasgLength, hhead]
      rfl
    have hnumbers := h.numbers
    rw [hlen, h0, Nat.sub_self, drop_zero, h.regTime, take_append_of_le_length (by
      rw [hhead]; simp [writeBits]), take_take, min_self, hhead] at hnumbers
    have hbytes : writeBits 4 m.count = [0, 0, 0, 0] :=
      eq_zero_of_shifted (length_bytesLE 4 _) hnumbers
    have hvalue : valueLE (writeBits 4 m.count) = m.count.toNat := valueLE_bytesLE m.count.isLt
    rw [hbytes] at hvalue
    exact hcount (BitVec.eq_of_toNat_eq hvalue.symm)
  · -- the last byte of the key is the highest one of the running number
    have hperiod : m.pubkey.data =
        m.pubkey.data.drop 8 ++ (writeBits 4 m.count ++ bytesLE 3 i.toNat) ++ [0] := by
      have hkey := h.pubkey
      rw [pasgHead, CPubKey.write_eq, cons_append, drop_succ_cons,
        drop_append_of_le_length (by omega), hi, ← append_assoc, ← append_assoc] at hkey
      rw [← append_assoc]
      exact hkey
    have hpre : m.pubkey.data.drop 8 <+: m.pubkey.data :=
      ⟨_, by rw [← append_assoc]; exact hperiod.symm⟩
    have hfirst : m.pubkey.data[0]? = some m.pubkey.header := by
      obtain ⟨c, cs, hc, -, hkc⟩ := m.pubkey.exists_vch
      rw [CPubKey.data, hc, hkc, getElem?_take_of_lt hpos]
      rfl
    have hlast : m.pubkey.data.getLast? = some 0 := by
      rw [hperiod, getLast?_concat]
    obtain ⟨q, hq⟩ : ∃ q, m.pubkey.size = 8 * q + 1 := by
      rcases hsize with hz | hz | hz
      · omega
      · exact ⟨4, hz⟩
      · exact ⟨8, hz⟩
    rw [getLast?_eq_getElem?, hdata, hq, Nat.add_sub_cancel,
      getElem?_of_drop_prefix hpre (by omega), hfirst, some.injEq] at hlast
    rw [CPubKey.size, hlast] at hpos
    exact absurd hpos (by decide)

end Reply

/-- **When the entries are read as sent.**  For every place that pushes a `pasee` message and every
entry: the handler reads what the place wrote, if and only if the script of the input is not above
the size limit and, for the relay, the key is valid or marked as invalid, or, for a reply to `pasg`,
the fields coincide.  They do so for no entry with a running number below `2 ^ 24` of a list that is
not empty. -/
theorem pasee_decodes_iff (place : PaseePlace) (m : Pasee) :
    (DecodesAsSent (place.write m) m ↔ m.vin.scriptSig.length ≤ maxSize ∧ place.Legible m) ∧
      ∀ i, place = .pasgList i ∨ place = .pasgEntry i → m.count ≠ 0 → i.toNat < 2 ^ 24 →
        ¬DecodesAsSent (place.write m) m := by
  have hreply : ∀ i, DecodesAsSent (pasgBytes m i) m ↔
      m.vin.scriptSig.length ≤ maxSize ∧ Coincides m i := by
    intro i
    have hbytes : pasgBytes m i = m.vin.write ++ (pasgHead m i ++ (writeBits 8 m.regTime ++
        writeBits 4 m.protocolVersion)) := by
      simp only [pasgBytes, pasgHead, append_assoc]
    rw [hbytes, decodesAsSent_iff, coincides_iff]
  constructor
  · cases place with
    | relay => exact relay_decodes_iff m
    | pasgList i => exact hreply i
    | pasgEntry i => exact hreply i
  · rintro i (rfl | rfl) hcount hi hsent
    all_goals exact absurd (((hreply i).1 hsent).2.running_number hcount) (by omega)

/-- A compressed key. -/
def aliasKey : CPubKey := ⟨2 :: replicate 64 3, by simp⟩

/-- An entry registered at time 1700000000, the only one of the list. -/
def aliasEntry : Pasee where
  vin := ⟨⟨7, 0⟩, [], uintMax⟩
  fits := ⟨by decide, by decide⟩
  regTime := 1700000000
  pubkey := aliasKey
  count := 1
  protocolVersion := 70047

/-- Both replies to `pasg` are read with another registration time: the length and the first bytes
of the key. -/
theorem pasee_misread : ((readPasee aliasKey (pasgBytes aliasEntry 0)).map fun g => g.1.regTime) =
        some 0x0303030303030221 ∧
      ¬ DecodesAsSent ((PaseePlace.pasgList 0).write aliasEntry) aliasEntry ∧
      ¬ DecodesAsSent ((PaseePlace.pasgEntry 0).write aliasEntry) aliasEntry := by
  have hread : ((readPasee aliasKey (pasgBytes aliasEntry 0)).map fun g => g.1.regTime) =
      some 0x0303030303030221 := by decide
  have hnot : ¬ DecodesAsSent (pasgBytes aliasEntry 0) aliasEntry := by
    intro h
    obtain ⟨g, rest, hg, -, htime, -⟩ := h aliasKey
    rw [hg, map_some, htime, some.injEq] at hread
    exact absurd hread (by decide)
  exact ⟨hread, hnot, hnot⟩

end Espers
