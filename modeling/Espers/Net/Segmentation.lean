import Espers.Net.Framing

/-!
# How the stream is cut makes no difference

The messages of a stream are its frames (`messageReader`), whatever pieces it arrives in.

* `receiveLoop_spec` : what is in the receive queue is what has arrived, complete messages first.
* `receiveAll_parse` : **the queue holds the frames of the stream, however it was cut**.
-/

namespace Espers

open Exec Wire Framing List Option Bool Nat

/-! ### Headers and frames -/

namespace CMessageHeader

theorem reads_header : Wire.Reads unserialize serialize Fits := by
  intro b hdr r
  simp only [unserialize, (reads_bytes _).bind_eq_some, (reads_word 4).bind_eq_some, some.injEq,
    Prod.mk.injEq]
  constructor
  · rintro ⟨pchMessageStart, b1, hstart, rfl, pchCommand, b2, hcommand, rfl, nMessageSize, b3,
      hsize, rfl, nChecksum, b4, hchecksum, rfl, rfl, rfl⟩
    exact ⟨⟨hstart, hcommand, hsize, hchecksum⟩, by simp [serialize]⟩
  · rintro ⟨hfits, rfl⟩
    refine ⟨hdr.pchMessageStart, _, hfits.start, ?_, hdr.pchCommand, _, hfits.command, rfl,
      hdr.nMessageSize, _, hfits.size, rfl, hdr.nChecksum, r, hfits.checksum, rfl, rfl, rfl⟩
    simp [serialize]

theorem length_serialize {hdr : CMessageHeader} (h : hdr.Fits) : hdr.serialize.length = 24 := by
  simp [serialize, h.start, h.command, commandSize]

/-- A header can be read from 24 bytes. -/
theorem unserialize_isSome {b : List UInt8} (h : 24 ≤ b.length) :
    ∃ hdr, unserialize b = some (hdr, b.drop 24) ∧ hdr.Fits ∧ b = hdr.serialize ++ b.drop 24 := by
  have hsome : ∃ x, unserialize b = some x := by
    unfold unserialize readWord readBytes commandSize
    rw [if_pos (by omega)]
    simp only [bind_some, length_drop]
    rw [if_pos (by omega)]
    simp only [bind_some, length_drop]
    rw [if_pos (by omega)]
    simp only [map_some, bind_some, length_drop]
    rw [if_pos (by omega)]
    exact ⟨_, rfl⟩
  obtain ⟨⟨hdr, r⟩, hread⟩ := hsome
  obtain ⟨hfits, hb⟩ := (reads_header b hdr r).1 hread
  have hr : b.drop 24 = r := by
    rw [hb, ← length_serialize hfits, drop_left]
  exact ⟨hdr, by rw [hr, hread], hfits, by rw [hr, ← hb]⟩

theorem unserialize_append {b r : List UInt8} {hdr : CMessageHeader}
    (h : unserialize b = some (hdr, r)) (c : List UInt8) :
    unserialize (b ++ c) = some (hdr, r ++ c) := by
  obtain ⟨hfits, rfl⟩ := (reads_header b hdr r).1 h
  rw [append_assoc]
  exact reads_header.write_append hfits _

theorem unserialize_eq_none {b : List UInt8} (h : b.length < 24) : unserialize b = none := by
  rw [eq_none_iff_forall_ne_some]
  rintro ⟨hdr, r⟩ hread
  obtain ⟨hfits, rfl⟩ := (reads_header b hdr r).1 hread
  rw [length_append, length_serialize hfits] at h
  omega

end CMessageHeader

/-- A message as it stands in the stream. -/
structure MessageFrame where
  hdr : CMessageHeader
  payload : List UInt8

/-- The header and the payload. -/
def MessageFrame.bytes (f : MessageFrame) : List UInt8 := f.hdr.serialize ++ f.payload

/-- The header tells the size of the payload, which is within the limit. -/
structure MessageFrame.Ok (f : MessageFrame) : Prop where
  fits : f.hdr.Fits
  size : f.hdr.nMessageSize = f.payload.length
  limit : f.hdr.nMessageSize ≤ maxSize

/-- The plain reader of the message format. -/
def readFrame (b : List UInt8) : Outcome UInt8 MessageFrame :=
  match CMessageHeader.unserialize b with
  | none => .short
  | some (hdr, r) =>
    if hdr.nMessageSize > maxSize then .refused
    else if r.length < hdr.nMessageSize then .short
    else .frame ⟨hdr, r.take hdr.nMessageSize⟩ (r.drop hdr.nMessageSize)

theorem readFrame_eq_frame {b rest : List UInt8} {f : MessageFrame} :
    readFrame b = .frame f rest ↔ f.Ok ∧ b = f.bytes ++ rest := by
  constructor
  · intro h
    unfold readFrame at h
    split at h
    · cases h
    · rename_i hdr r hread
      split_ifs at h with hlimit hshort
      obtain ⟨rfl, rfl⟩ := Outcome.frame.injEq .. ▸ h
      obtain ⟨hfits, rfl⟩ := (CMessageHeader.reads_header b hdr r).1 hread
      refine ⟨⟨hfits, ?_, Nat.le_of_not_lt hlimit⟩, ?_⟩
      · dsimp only
        rw [length_take]
        omega
      · rw [MessageFrame.bytes, append_assoc, take_append_drop]
  · rintro ⟨hok, rfl⟩
    unfold readFrame MessageFrame.bytes
    rw [append_assoc, CMessageHeader.reads_header.write_append hok.fits]
    dsimp only
    rw [if_neg (by have := hok.limit; omega), if_neg (by have := hok.size; simp; omega), hok.size,
      take_left, drop_left]

theorem readFrame_eq_refused {b : List UInt8} : readFrame b = .refused ↔
      ∃ hdr r, CMessageHeader.unserialize b = some (hdr, r) ∧ maxSize < hdr.nMessageSize := by
  unfold readFrame
  split
  · simp_all
  · split_ifs <;> simp_all

/-- The messages of a stream. -/
def messageReader : FrameReader UInt8 MessageFrame where
  read := readFrame
  frame_lt {b f rest} h := by
    obtain ⟨hok, rfl⟩ := readFrame_eq_frame.1 h
    have hlen := CMessageHeader.length_serialize hok.fits
    simp only [MessageFrame.bytes, length_append]
    omega
  frame_append {b f rest} c h := by
    obtain ⟨hok, rfl⟩ := readFrame_eq_frame.1 h
    exact readFrame_eq_frame.2 ⟨hok, append_assoc _ _ _⟩
  refused_append {b} c h := by
    obtain ⟨hdr, r, hread, hlimit⟩ := readFrame_eq_refused.1 h
    exact readFrame_eq_refused.2 ⟨hdr, r ++ c, CMessageHeader.unserialize_append hread c, hlimit⟩

theorem copyInto_ok {buf src : List UInt8} {pos : ℕ} (hpos : pos < buf.length)
    (hlen : pos + src.length ≤ buf.length) :
    ∃ buf', copyInto buf pos src = .ok buf' ∧ buf'.length = buf.length ∧
      buf'.take (pos + src.length) = buf.take pos ++ src := by
  refine ⟨_, if_pos ⟨hpos, hlen⟩, ?_, ?_⟩
  · simp only [length_append, length_take, length_drop]
    omega
  · have htake : (buf.take pos ++ src).length = pos + src.length := by
      rw [length_append, length_take]
      omega
    rw [← htake, take_left]

theorem length_resize (buf : List UInt8) (n : ℕ) : (resize buf n).length = n := by
  simp only [resize, length_append, length_take, length_replicate]
  omega

theorem take_resize {buf : List UInt8} {n k : ℕ} (hbuf : k ≤ buf.length) (hn : k ≤ n) :
    (resize buf n).take k = buf.take k := by
  rw [resize, take_append_of_le_length (by rw [length_take]; omega), take_take, min_eq_left hn]

/-! ### Messages that arrive -/

namespace CNetMessage

/-- The bytes of a message that have arrived. -/
def bytes (msg : CNetMessage) : List UInt8 :=
  if msg.inData then msg.hdr.serialize ++ msg.vRecv.take msg.nDataPos else
    msg.hdrbuf.take msg.nHdrPos

/-- The message as a frame. -/
def frame (msg : CNetMessage) : MessageFrame := ⟨msg.hdr, msg.vRecv⟩

/-- A message whose header is read. -/
structure InHeader (msg : CNetMessage) : Prop where
  hdrbuf : msg.hdrbuf.length = 24
  nHdrPos : msg.nHdrPos < 24
  vRecv : msg.vRecv = []
  nDataPos : msg.nDataPos = 0

/-- A message whose data is read: the buffer holds what has arrived, and no more than the header
says. -/
structure InData (msg : CNetMessage) : Prop where
  fits : msg.hdr.Fits
  limit : msg.hdr.nMessageSize ≤ maxSize
  arrived : msg.nDataPos ≤ msg.vRecv.length
  ahead : msg.vRecv.length ≤ msg.hdr.nMessageSize

/-- The positions are within the buffers. -/
structure Wf (msg : CNetMessage) : Prop where
  header : msg.inData = false → msg.InHeader
  data : msg.inData = true → msg.InData

theorem wf_new (E : MessageEnv) : (new E).Wf where
  header _ := ⟨rfl, by simp [new], rfl, rfl⟩
  data := nofun

variable {msg : CNetMessage}

theorem complete_iff :
    msg.complete = true ↔ msg.inData = true ∧ msg.hdr.nMessageSize = msg.nDataPos := by
  simp [complete]

theorem Wf.length_vRecv (h : msg.Wf) (hc : msg.complete = true) :
    msg.vRecv.length = msg.hdr.nMessageSize := by
  obtain ⟨hin, hsize⟩ := complete_iff.1 hc
  obtain ⟨-, -, harrived, hahead⟩ := h.data hin
  omega

theorem Wf.frame_ok (h : msg.Wf) (hc : msg.complete = true) : msg.frame.Ok :=
  have hdata := h.data (complete_iff.1 hc).1
  ⟨hdata.fits, (h.length_vRecv hc).symm, hdata.limit⟩

theorem Wf.bytes_frame (h : msg.Wf) (hc : msg.complete = true) : msg.frame.bytes = msg.bytes := by
  obtain ⟨hin, hsize⟩ := complete_iff.1 hc
  rw [bytes, if_pos hin, MessageFrame.bytes, frame, ← hsize,
    take_of_length_le (h.length_vRecv hc).le]

/-- Nothing can be read from the bytes of a message that is not complete. -/
theorem Wf.readFrame_bytes (h : msg.Wf) (hc : msg.complete = false) :
    readFrame msg.bytes = .short := by
  unfold readFrame bytes
  cases hin : msg.inData with
  | false =>
    rw [if_neg Bool.false_ne_true, CMessageHeader.unserialize_eq_none]
    obtain ⟨hlen, hpos, -, -⟩ := h.header hin
    rw [length_take, hlen]
    omega
  | true =>
    obtain ⟨hfits, hlimit, harrived, hahead⟩ := h.data hin
    have hne : msg.hdr.nMessageSize ≠ msg.nDataPos := fun heq =>
      false_ne_true (hc.symm.trans (complete_iff.2 ⟨hin, heq⟩))
    rw [if_pos rfl, CMessageHeader.reads_header.write_append hfits]
    dsimp only
    rw [if_neg (by omega), if_pos]
    rw [length_take]
    omega

/-- What a pass of the loop makes of a message: it has taken bytes from the front of what arrived,
or with them the stream is refused. -/
inductive Absorbs (msg : CNetMessage) (pch : List UInt8) : CNetMessage → Option ℕ → Prop
  | handled {msg' : CNetMessage} {k : ℕ} (pos : 0 < k) (le : k ≤ pch.length) (wf : msg'.Wf)
    (bytes_eq : msg'.bytes = msg.bytes ++ pch.take k) : Absorbs msg pch msg' (some k)
  | refused {msg' : CNetMessage} (read_eq : readFrame (msg.bytes ++ pch) = .refused)
    (short : msg'.complete = false) : Absorbs msg pch msg' none

variable {pch : List UInt8}

theorem readHeader_spec (h : msg.Wf) (hin : msg.inData = false) (hpch : pch ≠ []) :
    ∃ msg' handled, msg.readHeader pch = .ok (msg', handled) ∧ msg.Absorbs pch msg' handled := by
  obtain ⟨hlen, hpos, hvRecv, hDataPos⟩ := h.header hin
  have hne : 0 < pch.length := length_pos_iff.2 hpch
  obtain ⟨nCopy, hCopy⟩ : ∃ n, n = min (24 - msg.nHdrPos) pch.length := ⟨_, rfl⟩
  have hsrc : (pch.take nCopy).length = nCopy := by
    rw [length_take]
    omega
  obtain ⟨buf, hbuf, hbuflen, htake⟩ := copyInto_ok
    (show msg.nHdrPos < msg.hdrbuf.length by omega)
    (show msg.nHdrPos + (pch.take nCopy).length ≤ msg.hdrbuf.length by omega)
  rw [hsrc] at htake
  have hbytes : msg.bytes = msg.hdrbuf.take msg.nHdrPos := by rw [bytes, hin]; rfl
  unfold readHeader
  dsimp only
  rw [← hCopy, hbuf]
  dsimp only [bind, Except.bind]
  by_cases hshort : msg.nHdrPos + nCopy < 24
  · rw [if_pos hshort]
    refine ⟨_, _, rfl, .handled (by omega) (by omega) ?_ ?_⟩
    · exact ⟨fun _ => ⟨hbuflen.trans hlen, hshort, hvRecv, hDataPos⟩,
        fun hdata => Bool.noConfusion (hin.symm.trans hdata)⟩
    · rw [hbytes, ← htake, bytes]
      rw [hin]
      rfl
  · -- the header buffer is full
    have hfull : buf = msg.bytes ++ pch.take nCopy := by
      rw [hbytes, ← htake, take_of_length_le (by omega)]
    obtain ⟨hdr, hread, hfits, hsplit⟩ :=
      CMessageHeader.unserialize_isSome (b := buf) (by omega)
    have hrest : buf.drop 24 = [] := drop_eq_nil_of_le (by omega)
    rw [hrest] at hread hsplit
    rw [if_neg hshort, hread]
    dsimp only
    by_cases hlimit : hdr.nMessageSize > maxSize
    · rw [if_pos hlimit]
      refine ⟨_, _, rfl, .refused ?_ (by simp [complete, hin])⟩
      have happend : msg.bytes ++ pch = buf ++ pch.drop nCopy := by
        rw [hfull, append_assoc, take_append_drop]
      rw [happend]
      exact readFrame_eq_refused.2
        ⟨hdr, _, CMessageHeader.unserialize_append hread _, hlimit⟩
    · rw [if_neg hlimit]
      refine ⟨_, _, rfl, .handled (by omega) (by omega) ?_ ?_⟩
      · exact ⟨nofun, fun _ =>
          ⟨hfits, Nat.le_of_not_lt hlimit, by simp [hDataPos], by simp [hvRecv]⟩⟩
      · rw [← hfull, hsplit, bytes, if_pos rfl]
        simp [hvRecv]

theorem readData_spec (h : msg.Wf) (hin : msg.inData = true)
    (hc : msg.complete = false) (hpch : pch ≠ []) :
    ∃ msg' handled, msg.readData pch = .ok (msg', handled) ∧ msg.Absorbs pch msg' handled := by
  obtain ⟨hfits, hlimit, harrived, hahead⟩ := h.data hin
  have hmore : msg.hdr.nMessageSize ≠ msg.nDataPos := fun heq =>
    false_ne_true (hc.symm.trans (complete_iff.2 ⟨hin, heq⟩))
  have hne : 0 < pch.length := length_pos_iff.2 hpch
  obtain ⟨nCopy, hCopy⟩ : ∃ n, n = min (msg.hdr.nMessageSize - msg.nDataPos) pch.length := ⟨_, rfl⟩
  have hsrc : (pch.take nCopy).length = nCopy := by
    rw [length_take]
    omega
  -- the data buffer as it is after it was grown
  obtain ⟨buf, hbuf, htake, hroom, hsize⟩ : ∃ buf, (if msg.vRecv.length < msg.nDataPos + nCopy then
        resize msg.vRecv (min msg.hdr.nMessageSize (msg.nDataPos + nCopy + 256 * 1024))
      else msg.vRecv) = buf ∧ buf.take msg.nDataPos = msg.vRecv.take msg.nDataPos ∧
      msg.nDataPos + nCopy ≤ buf.length ∧ buf.length ≤ msg.hdr.nMessageSize := by
    refine ⟨_, rfl, ?_⟩
    split_ifs with hgrow
    · exact ⟨take_resize harrived (by omega), by rw [length_resize]; omega,
        by rw [length_resize]; omega⟩
    · exact ⟨rfl, by omega, hahead⟩
  obtain ⟨buf', hbuf', hlen', htake'⟩ := copyInto_ok
    (show msg.nDataPos < buf.length by omega)
    (show msg.nDataPos + (pch.take nCopy).length ≤ buf.length by omega)
  rw [hsrc, htake] at htake'
  unfold readData
  dsimp only
  rw [← hCopy, hbuf, hbuf']
  refine ⟨_, _, rfl, .handled (by omega) (by omega) ?_ ?_⟩
  · exact ⟨fun hhdr => Bool.noConfusion (hin.symm.trans hhdr),
      fun _ => ⟨hfits, hlimit, by dsimp only; omega, by dsimp only; omega⟩⟩
  · rw [bytes, bytes, if_pos hin, if_pos hin]
    rw [htake', append_assoc]

theorem absorb_spec (h : msg.Wf) (hc : msg.complete = false) (hpch : pch ≠ []) :
    ∃ msg' handled, msg.absorb pch = .ok (msg', handled) ∧ msg.Absorbs pch msg' handled := by
  unfold absorb
  cases hin : msg.inData with
  | false => exact readHeader_spec h hin hpch
  | true => exact readData_spec h hin hc hpch

end CNetMessage

/-! ### The receive queue -/

/-- The bytes of the messages of a queue. -/
def queueBytes (q : List CNetMessage) : List UInt8 := q.flatMap CNetMessage.bytes

/-- The complete messages of a queue, as frames. -/
def queueFrames (q : List CNetMessage) : List MessageFrame :=
  (q.filter CNetMessage.complete).map CNetMessage.frame

/-- Every message but the last is complete. -/
structure QueueWf (q : List CNetMessage) : Prop where
  wf : ∀ msg ∈ q, msg.Wf
  complete : ∀ msg ∈ q.dropLast, msg.complete = true

theorem queueWf_nil : QueueWf [] := ⟨nofun, nofun⟩

variable {q : List CNetMessage}

theorem QueueWf.tail {msg : CNetMessage} (h : QueueWf (msg :: q)) : QueueWf q where
  wf msg' hmsg := h.wf msg' (mem_cons_of_mem msg hmsg)
  complete msg' hmsg := by
    cases q with
    | nil => exact absurd hmsg not_mem_nil
    | cons head q =>
      exact h.complete msg' (by
        rw [dropLast_cons_cons]
        exact mem_cons_of_mem msg hmsg)

theorem queueBytes_eq (hwf : ∀ msg ∈ q, msg.Wf) (hc : ∀ msg ∈ q, msg.complete = true) :
    queueBytes q = (q.map CNetMessage.frame).flatMap MessageFrame.bytes := by
  rw [queueBytes, flatMap_map]
  exact flatMap_congr fun msg hmsg => ((hwf msg hmsg).bytes_frame (hc msg hmsg)).symm

theorem parse_nil : messageReader.parse [] = ⟨[], false⟩ := FrameReader.parse_of_short rfl

theorem parse_queueBytes (hwf : ∀ msg ∈ q, msg.Wf)
    (hc : ∀ msg ∈ q, msg.complete = true) (b : List UInt8) :
    messageReader.parse (queueBytes q ++ b) =
      ⟨q.map CNetMessage.frame ++ (messageReader.parse b).frames,
      (messageReader.parse b).refused⟩ := by
  rw [queueBytes_eq hwf hc]
  refine messageReader.parse_frames (fun f hf rest => ?_) b
  obtain ⟨msg, hmsg, rfl⟩ := mem_map.1 hf
  exact readFrame_eq_frame.2 ⟨(hwf msg hmsg).frame_ok (hc msg hmsg), rfl⟩

/-- The messages of the bytes in a queue are its complete ones. -/
theorem QueueWf.parse (h : QueueWf q) :
    messageReader.parse (queueBytes q) = ⟨queueFrames q, false⟩ := by
  obtain rfl | ⟨before, msg, rfl⟩ := eq_nil_or_concat q
  · exact parse_nil
  · have hbefore : ∀ m ∈ before, m.complete = true := fun m hm =>
      h.complete m (by rwa [concat_eq_append, dropLast_concat])
    have hwf : ∀ m ∈ before, m.Wf := fun m hm => h.wf m (by simp [hm])
    have hmsg : msg.Wf := h.wf msg (by simp)
    have hfilter : before.filter CNetMessage.complete = before := filter_eq_self.2 hbefore
    rw [concat_eq_append, queueBytes, flatMap_append, ← queueBytes, parse_queueBytes hwf hbefore]
    simp only [queueFrames, filter_append, hfilter, flatMap_singleton]
    cases hc : msg.complete with
    | true =>
      have hread : messageReader.read (msg.bytes ++ []) = .frame msg.frame [] := by
        rw [← hmsg.bytes_frame hc]
        exact readFrame_eq_frame.2 ⟨hmsg.frame_ok hc, rfl⟩
      rw [append_nil] at hread
      rw [FrameReader.parse_of_frame hread, parse_nil]
      simp [hc]
    | false =>
      rw [FrameReader.parse_of_short (R := messageReader) (hmsg.readFrame_bytes hc)]
      simp [hc]

/-- The message to be continued is not complete, those before it are. -/
theorem currentMessage_spec (E : MessageEnv) (h : QueueWf q) :
    (∀ msg ∈ (currentMessage E q).1, msg.Wf ∧ msg.complete = true) ∧ (currentMessage E q).2.Wf ∧
      (currentMessage E q).2.complete = false ∧
      queueBytes q = queueBytes (currentMessage E q).1 ++ (currentMessage E q).2.bytes := by
  obtain rfl | ⟨before, msg, rfl⟩ := eq_nil_or_concat q
  · exact ⟨nofun, CNetMessage.wf_new E, rfl, rfl⟩
  · rw [concat_eq_append] at h ⊢
    have hbefore : ∀ m ∈ before, m.Wf ∧ m.complete = true := fun m hm =>
      ⟨h.wf m (mem_append_left _ hm), h.complete m (by rwa [dropLast_concat])⟩
    have hmsg : msg.Wf := h.wf msg (by simp)
    unfold currentMessage
    rw [getLast?_concat, dropLast_concat]
    dsimp only
    cases hc : msg.complete with
    | true =>
      refine ⟨fun m hm => ?_, CNetMessage.wf_new E, rfl, (append_nil _).symm⟩
      obtain hm | hm := mem_append.1 hm
      · exact hbefore m hm
      · obtain rfl := mem_singleton.1 hm
        exact ⟨hmsg, hc⟩
    | false =>
      exact ⟨hbefore, hmsg, hc, by simp [queueBytes]⟩

/-- What a call leaves in the queue: either everything that arrived, or the complete messages before
bytes that are refused. -/
inductive Received (q : List CNetMessage) (pch : List UInt8) : List CNetMessage → Bool → Prop
  | stored {q' : List CNetMessage} (wf : QueueWf q')
    (bytes_eq : queueBytes q' = queueBytes q ++ pch) : Received q pch q' true
  | refused {before : List CNetMessage} {msg : CNetMessage} {b : List UInt8}
    (wf : ∀ m ∈ before, m.Wf ∧ m.complete = true) (short : msg.complete = false)
    (bytes_eq : queueBytes q ++ pch = queueBytes before ++ b) (read_eq : readFrame b = .refused) :
    Received q pch (before ++ [msg]) false

/-- The loop of `ReceiveMsgBytes`, by induction on its passes. -/
theorem receiveLoop_spec (E : MessageEnv) {passes : ℕ} {pch : List UInt8}
    (hq : QueueWf q) (hpasses : pch.length ≤ passes) :
    ∃ q' fOk, receiveLoop E passes q pch = .ok (q', fOk) ∧ Received q pch q' fOk := by
  induction passes generalizing q pch with
  | zero =>
    obtain rfl := length_eq_zero_iff.1 (le_zero.1 hpasses)
    exact ⟨q, true, by rw [receiveLoop], .stored hq (append_nil _).symm⟩
  | succ passes ih =>
    cases pch with
    | nil => exact ⟨q, true, by rw [receiveLoop], .stored hq (append_nil _).symm⟩
    | cons c pch =>
      obtain ⟨hbefore, hwf, hshort, hbytes⟩ := currentMessage_spec E hq
      rw [receiveLoop]
      on_goal 2 => exact cons_ne_nil c pch
      generalize currentMessage E q = current at *
      obtain ⟨before, msg⟩ := current
      dsimp only at hbefore hwf hshort hbytes ⊢
      obtain ⟨msg', handled, hstep, habsorbs⟩ :=
        CNetMessage.absorb_spec hwf hshort (cons_ne_nil c pch)
      rw [hstep]
      cases habsorbs with
      | @handled k hpos hle hwf' hbytes' =>
        have hq' : QueueWf (before ++ [msg']) := by
          constructor
          · intro m hm
            obtain hm | hm := mem_append.1 hm
            · exact (hbefore m hm).1
            · exact mem_singleton.1 hm ▸ hwf'
          · rw [dropLast_concat]
            exact fun m hm => (hbefore m hm).2
        have hsplit : queueBytes (before ++ [msg']) ++ (c :: pch).drop k = queueBytes q ++
          (c :: pch) := by
          rw [hbytes, queueBytes, flatMap_append, flatMap_singleton, hbytes', ← queueBytes]
          simp only [append_assoc, take_append_drop]
        obtain ⟨q'', fOk, hloop, hreceived⟩ := @ih _ ((c :: pch).drop k) hq' (by
          rw [length_drop]
          omega)
        refine ⟨q'', fOk, hloop, ?_⟩
        cases hreceived with
        | stored wf bytes_eq => exact .stored wf (bytes_eq.trans hsplit)
        | refused wf short bytes_eq read_eq =>
          exact .refused wf short (hsplit.symm.trans bytes_eq) read_eq
      | refused hread hshort' =>
        exact ⟨_, false, rfl, .refused hbefore hshort' (by rw [hbytes, append_assoc]) hread⟩

theorem receiveMsgBytes_spec (E : MessageEnv) (hq : QueueWf q) (pch : List UInt8) :
    ∃ q' fOk, receiveMsgBytes E q pch = .ok (q', fOk) ∧ Received q pch q' fOk :=
  receiveLoop_spec E hq le_rfl

/-- The pieces of a stream one after the other, until the peer is to be disconnected. -/
def receiveAll (E : MessageEnv) : List CNetMessage → List (List UInt8) →
    Except Stop (List CNetMessage × Bool)
  | vRecvMsg, [] => .ok (vRecvMsg, true)
  | vRecvMsg, chunk :: chunks => do
    let (vRecvMsg, fOk) ← receiveMsgBytes E vRecvMsg chunk
    if fOk then receiveAll E vRecvMsg chunks else .ok (vRecvMsg, false)

theorem parse_of_refused {before : List CNetMessage} {msg : CNetMessage} {b : List UInt8}
    (hbefore : ∀ m ∈ before, m.Wf ∧ m.complete = true) (hshort : msg.complete = false)
    (hread : readFrame b = .refused) :
    messageReader.parse (queueBytes before ++ b) = ⟨queueFrames (before ++ [msg]), true⟩ := by
  have hfilter : before.filter CNetMessage.complete = before :=
    filter_eq_self.2 fun m hm => (hbefore m hm).2
  rw [parse_queueBytes (fun m hm => (hbefore m hm).1) fun m hm => (hbefore m hm).2,
    FrameReader.parse_of_refused (R := messageReader) hread]
  simp [queueFrames, hfilter, hshort]

/-- **The queue holds the frames of the stream, and the stream is refused, however it was cut**. -/
theorem receiveAll_parse (E : MessageEnv) (hq : QueueWf q) (chunks : List (List UInt8)) :
    ∃ q' fOk, receiveAll E q chunks = .ok (q', fOk) ∧
      messageReader.parse (queueBytes q ++ chunks.flatten) = ⟨queueFrames q', !fOk⟩ := by
  induction chunks generalizing q with
  | nil => exact ⟨q, true, rfl, by rw [flatten_nil, append_nil, hq.parse]; rfl⟩
  | cons chunk chunks ih =>
    obtain ⟨q1, fOk, hstep, hreceived⟩ := receiveMsgBytes_spec E hq chunk
    rw [receiveAll, hstep, flatten_cons, ← append_assoc]
    cases hreceived with
    | stored wf bytes_eq =>
      rw [← bytes_eq]
      exact ih wf
    | refused wf short bytes_eq read_eq =>
      refine ⟨_, false, rfl, ?_⟩
      rw [bytes_eq, append_assoc]
      exact parse_of_refused wf short (messageReader.refused_append _ read_eq)

end Espers
