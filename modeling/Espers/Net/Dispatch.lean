import Espers.Net.Segmentation

/-!
# Messages are dispatched once each

A connection receives pieces of a stream while `ProcessMessages` takes complete messages off its
queue.

* `Session.Inv` : what is gone and what is queued are the messages of what has arrived.
* `Session.step_spec` : an event keeps the invariant, or the connection is closed for a reason
  (`Session.Fault`).
* `NetMessage.dispatch_frame`, `pushMessage_eq` : what is sent, and what it is dispatched as.
* `messages_dispatched` : **messages are dispatched in order and once each, however their stream is
  cut**.
-/

namespace Espers

open Exec Wire Framing List

/-! ### Messages that are dispatched -/

/-- What a message is dispatched as, if its header is valid and its checksum right. -/
def MessageFrame.dispatch (E : MessageEnv) (f : MessageFrame) : Option (List UInt8 × List UInt8) :=
  if f.hdr.isValid E = true ∧ checksum (E.hash f.payload) = f.hdr.nChecksum then
    some (f.hdr.getCommand, f.payload)
  else none

/-- What a call leaves of the queue: the messages in front are gone, one at most was dispatched; or
one of them has a wrong start. -/
inductive Dequeued (E : MessageEnv) (call : ProcessCall) (q : List CNetMessage) :
    Bool → List CNetMessage → Option (List UInt8 × List UInt8) → Prop
  | gone {done rest : List CNetMessage} {dispatched : Option (List UInt8 × List UInt8)}
    (split : q = done ++ rest) (complete : ∀ msg ∈ done, msg.complete = true)
    (dispatched_eq : dispatched.toList = (done.map CNetMessage.frame).filterMap
    (MessageFrame.dispatch E)) (progress : call.sendBufferFull = false → queueFrames q ≠
    [] → done ≠ []) : Dequeued E call q true rest dispatched
  | stray {msg : CNetMessage} {rest : List CNetMessage} (mem : msg ∈ q)
    (complete : msg.complete = true) (start : msg.hdr.pchMessageStart ≠ E.messageStart) :
    Dequeued E call q false rest none

variable {E : MessageEnv}

theorem Dequeued.skip {call : ProcessCall} {msg : CNetMessage} {q rest : List CNetMessage}
    {fOk : Bool} {dispatched : Option (List UInt8 × List UInt8)} (hc : msg.complete = true)
    (hskip : msg.frame.dispatch E = none) (h : Dequeued E call q fOk rest dispatched) :
    Dequeued E call (msg :: q) fOk rest dispatched := by
  cases h with
  | @gone done rest dispatched split complete dispatched_eq progress =>
    refine @Dequeued.gone _ _ _ (msg :: done) _ _ (by rw [split, cons_append])
      (fun m hm => ?_) ?_ fun _ _ => cons_ne_nil msg done
    · obtain rfl | hm := mem_cons.1 hm
      · exact hc
      · exact complete m hm
    · rw [map_cons, filterMap_cons_none hskip, dispatched_eq]
  | stray mem complete start => exact .stray (mem_cons_of_mem msg mem) complete start

/-- The loop of `ProcessMessages`, by induction on the queue. -/
theorem processLoop_spec (E : MessageEnv) (call : ProcessCall) {q : List CNetMessage}
    (hq : QueueWf q) : ∃ fOk rest dispatched, processLoop E call q = .ok (fOk, rest, dispatched) ∧
      Dequeued E call q fOk rest dispatched := by
  induction q with
  | nil => exact ⟨_, _, _, rfl, @Dequeued.gone _ _ _ [] _ _ rfl nofun rfl fun _ h => absurd rfl h⟩
  | cons msg q ih =>
    obtain ⟨fOk, rest, dispatched, hrest, hdequeued⟩ := ih hq.tail
    have hwf : msg.Wf := hq.wf msg mem_cons_self
    unfold processLoop
    by_cases hfull : call.sendBufferFull = true
    · rw [if_pos hfull]
      exact ⟨_, _, _, rfl, @Dequeued.gone _ _ _ [] _ _ rfl nofun rfl fun h _ =>
        by simp [hfull] at h⟩
    by_cases hc : msg.complete = true
    · rw [if_neg hfull, if_neg (by simp [hc])]
      by_cases hstart : msg.hdr.pchMessageStart = E.messageStart
      · rw [if_neg (not_not_intro hstart)]
        by_cases hvalid : msg.hdr.isValid E = true
        · have hlen : ¬ msg.vRecv.length < msg.hdr.nMessageSize := by
            rw [hwf.length_vRecv hc]
            exact lt_irrefl _
          have htake : msg.vRecv.take msg.hdr.nMessageSize = msg.vRecv :=
            take_of_length_le (hwf.length_vRecv hc).le
          rw [if_neg (by simp [hvalid]), if_neg hlen, htake]
          by_cases hchecksum : checksum (E.hash msg.vRecv) = msg.hdr.nChecksum
          · rw [if_neg (not_not_intro hchecksum)]
            have hdispatch : msg.frame.dispatch E = some (msg.hdr.getCommand, msg.vRecv) :=
              if_pos ⟨hvalid, hchecksum⟩
            refine ⟨_, _, _, rfl, @Dequeued.gone _ _ _ [msg] _ _ rfl (by simpa using hc) ?_
              fun _ _ => cons_ne_nil msg []⟩
            rw [map_singleton, filterMap_cons_some hdispatch]
            rfl
          · rw [if_pos hchecksum]
            exact ⟨_, _, _, hrest, hdequeued.skip hc (if_neg fun h => hchecksum h.2)⟩
        · rw [if_pos (by simp [hvalid])]
          exact ⟨_, _, _, hrest, hdequeued.skip hc (if_neg fun h => hvalid h.1)⟩
      · rw [if_pos hstart]
        exact ⟨_, _, _, rfl, .stray mem_cons_self hc hstart⟩
    · rw [if_neg hfull, if_pos (by simp [hc])]
      refine ⟨_, _, _, rfl, @Dequeued.gone _ _ _ [] _ _ rfl nofun rfl fun _ hframes =>
        absurd ?_ hframes⟩
      -- nothing follows a message that is not complete
      cases q with
      | nil => simp [queueFrames, hc]
      | cons head q => exact absurd (hq.complete msg (by simp)) hc

theorem QueueWf.of_append {done rest : List CNetMessage} (h : QueueWf (done ++ rest)) :
    QueueWf rest := by
  induction done with
  | nil => exact h
  | cons msg done ih => exact ih h.tail

/-! ### A connection -/

/-- A connection that is open: the messages that are gone and those in the queue are what has
arrived, and of the former those with a valid header and the right checksum were dispatched. -/
structure Session.Inv (E : MessageEnv) (s : Session) (gone : List MessageFrame) : Prop where
  connected : s.node.fDisconnect = false
  queue : QueueWf s.node.vRecvMsg
  ok : ∀ f ∈ gone, f.Ok
  received : s.received = gone.flatMap MessageFrame.bytes ++ queueBytes s.node.vRecvMsg
  dispatched : s.dispatched = gone.filterMap (MessageFrame.dispatch E)

theorem Session.inv_start (E : MessageEnv) : Session.start.Inv E [] :=
  ⟨rfl, queueWf_nil, nofun, rfl, rfl⟩

variable {gone : List MessageFrame} {s : Session}

theorem Session.Inv.parse (h : s.Inv E gone) : messageReader.parse s.received =
    ⟨gone ++ queueFrames s.node.vRecvMsg, false⟩ := by
  rw [h.received,
    messageReader.parse_frames (fun f hf rest => readFrame_eq_frame.2 ⟨h.ok f hf, rfl⟩),
    h.queue.parse]

/-- The bytes that arrive in the course of events. -/
def arrived : List NetEvent → List UInt8
  | [] => []
  | .receive chunk :: events => chunk ++ arrived events
  | .process _ :: events => arrived events

/-- Why a connection is closed: what has arrived is refused, a message has a wrong start, or a
handler closes it. -/
inductive Session.Fault (E : MessageEnv) (b : List UInt8) : NetEvent → Prop
  | refused {chunk : List UInt8} : (messageReader.parse b).refused = true →
    Fault E b (.receive chunk)
  | stray {call : ProcessCall} {f : MessageFrame} : f ∈ (messageReader.parse b).frames →
    f.hdr.pchMessageStart ≠ E.messageStart → Fault E b (.process call)
  | disconnects {call : ProcessCall} : call.disconnects = true → Fault E b (.process call)

/-- What an event does to an open connection. -/
inductive Session.Steps (E : MessageEnv) (s : Session) (gone : List MessageFrame) (e : NetEvent) :
    Session → Prop
  | stays {s' : Session} {done : List MessageFrame} (inv : s'.Inv E (gone ++ done))
    (received : s'.received = s.received ++ arrived [e])
    (progress : ∀ call, e = .process call → call.getDataPending = false →
    call.sendBufferFull = false →
      queueFrames s.node.vRecvMsg ≠ [] → done ≠ []) : Steps E s gone e s'
  | closed {s' : Session} (closed : s'.node.fDisconnect = true)
    (fault : Fault E (s.received ++ arrived [e]) e) : Steps E s gone e s'

theorem Session.step_receive (h : s.Inv E gone) (chunk : List UInt8) :
    ∃ s', s.step E (.receive chunk) = .ok s' ∧ s.Steps E gone (.receive chunk) s' := by
  obtain ⟨q, fOk, hstep, hreceived⟩ := receiveMsgBytes_spec E h.queue chunk
  have harrived : arrived [NetEvent.receive chunk] = chunk := append_nil chunk
  unfold Session.step
  dsimp only
  rw [if_neg (by simp [h.connected]), hstep]
  refine ⟨_, rfl, ?_⟩
  cases hreceived with
  | stored wf bytes_eq =>
    refine @Session.Steps.stays _ _ _ _ _ []
      ⟨h.connected, wf, by simpa using h.ok, ?_, by simpa using h.dispatched⟩
      (by rw [harrived]) nofun
    rw [h.received, append_nil, if_pos rfl, bytes_eq, append_assoc]
  | refused wf short bytes_eq read_eq =>
    refine .closed rfl (.refused ?_)
    rw [harrived, h.received, append_assoc, bytes_eq,
      messageReader.parse_frames fun f hf rest => readFrame_eq_frame.2 ⟨h.ok f hf, rfl⟩]
    rw [parse_of_refused wf short read_eq]

theorem Session.step_process (h : s.Inv E gone) (call : ProcessCall) :
    ∃ s', s.step E (.process call) = .ok s' ∧ s.Steps E gone (.process call) s' := by
  have harrived : s.received ++ arrived [NetEvent.process call] = s.received := append_nil _
  unfold Session.step processMessages
  dsimp only
  rw [if_neg (by simp [h.connected])]
  by_cases hpending : call.getDataPending = true
  · rw [if_pos (Or.inl hpending)]
    refine ⟨_, rfl, @Session.Steps.stays _ _ _ _ _ []
      ⟨h.connected, h.queue, by simpa using h.ok, ?_, ?_⟩ harrived.symm ?_⟩
    · simpa using h.received
    · simpa using h.dispatched
    · intro call' hcall hfalse
      cases hcall
      exact absurd (hpending.symm.trans hfalse) Bool.noConfusion
  · rw [if_neg (by simp [hpending, h.connected])]
    obtain ⟨fOk, rest, dispatched, hloop, hdequeued⟩ := processLoop_spec E call h.queue
    rw [hloop]
    dsimp only [bind, Except.bind]
    cases hdequeued with
    | @gone done rest dispatched split complete dispatched_eq progress =>
      by_cases hclosed : dispatched.isSome = true ∧ call.disconnects = true
      · rw [if_pos hclosed]
        exact ⟨_, rfl, .closed rfl (.disconnects hclosed.2)⟩
      · rw [if_neg hclosed]
        have hwf : ∀ msg ∈ done, msg.Wf := fun msg hmsg =>
          h.queue.wf msg (by rw [split]; exact mem_append_left rest hmsg)
        refine ⟨_, rfl, @Session.Steps.stays _ _ _ _ _ (done.map CNetMessage.frame)
          ⟨h.connected, ?_, ?_, ?_, ?_⟩ harrived.symm ?_⟩
        · exact (split ▸ h.queue).of_append
        · intro f hf
          obtain hf | hf := mem_append.1 hf
          · exact h.ok f hf
          · obtain ⟨msg, hmsg, rfl⟩ := mem_map.1 hf
            exact (hwf msg hmsg).frame_ok (complete msg hmsg)
        · dsimp only
          rw [if_pos rfl, h.received, flatMap_append, ← queueBytes_eq hwf complete, split,
            append_assoc, queueBytes, flatMap_append]
          rfl
        · dsimp only
          rw [h.dispatched, filterMap_append, dispatched_eq]
        · intro call' hcall _ hroom hframes
          cases hcall
          exact fun hnil => progress hroom hframes (map_eq_nil_iff.1 hnil)
    | @stray msg rest mem complete start =>
      refine ⟨_, rfl, .closed rfl (.stray (f := msg.frame) ?_ start)⟩
      rw [harrived, h.parse]
      exact mem_append_right gone
        (mem_map_of_mem (mem_filter.2 ⟨mem, complete⟩))

theorem Session.step_spec
    (h : s.Inv E gone) (e : NetEvent) : ∃ s', s.step E e = .ok s' ∧ s.Steps E gone e s' := by
  cases e with
  | receive chunk => exact step_receive h chunk
  | process call => exact step_process h call

theorem Session.step_closed (h : s.node.fDisconnect = true)
    (e : NetEvent) : s.step E e = .ok s := by
  cases e <;> exact if_pos h

theorem Session.run_closed (h : s.node.fDisconnect = true)
    (events : List NetEvent) : s.run E events = .ok s := by
  induction events with
  | nil => rfl
  | cons e events ih =>
    rw [run, step_closed h]
    exact ih

theorem Session.run_ok (h : s.Inv E gone)
    (events : List NetEvent) : ∃ s', s.run E events = .ok s' := by
  induction events generalizing s gone with
  | nil => exact ⟨s, rfl⟩
  | cons e events ih =>
    obtain ⟨s1, hstep, hsteps⟩ := step_spec h e
    rw [run, hstep]
    cases hsteps with
    | stays inv _ _ => exact ih inv
    | closed closed _ => exact ⟨s1, run_closed closed events⟩

/-! ### Messages that were sent -/

/-- The header of a message. -/
def NetMessage.header (E : MessageEnv) (msg : NetMessage) : CMessageHeader :=
  { CMessageHeader.ofCommand E msg.command msg.payload.length with
    nChecksum := checksum (E.hash msg.payload) }

/-- A message in the stream. -/
def NetMessage.frame (E : MessageEnv) (msg : NetMessage) : MessageFrame :=
    ⟨msg.header E, msg.payload⟩

theorem checksum_lt (hash : Uint256) : checksum hash < 256 ^ 4 := Nat.mod_lt _ (by norm_num)

theorem maxSize_lt : maxSize < 256 ^ 4 := by decide

namespace NetMessage

theorem length_pchCommand (E : MessageEnv) (msg : NetMessage) (n : ℕ) :
    (CMessageHeader.ofCommand E msg.command n).pchCommand.length = commandSize := by
  simp only [CMessageHeader.ofCommand, length_append, length_take, length_replicate]
  omega

theorem pchCommand_eq (E : MessageEnv) (msg : NetMessage) (n : ℕ) :
    (CMessageHeader.ofCommand E msg.command n).pchCommand =
      msg.command ++ replicate (commandSize - msg.command.length) 0 := by
  simp only [CMessageHeader.ofCommand, take_of_length_le msg.command_length]

theorem frame_ok (E : MessageEnv) (msg : NetMessage) : (msg.frame E).Ok where
  fits := ⟨E.messageStart_length, length_pchCommand E msg msg.payload.length,
    msg.payload_length.trans_lt maxSize_lt, checksum_lt _⟩
  size := rfl
  limit := msg.payload_length

end NetMessage

theorem validCommand_append {command : List UInt8} (h : ∀ c ∈ command, 32 ≤ c ∧ c ≤ 0x7E) (n : ℕ) :
    CMessageHeader.validCommand (command ++ replicate n 0) = true := by
  induction command with
  | nil =>
    cases n with
    | zero => rfl
    | succ n => simp [replicate_succ, CMessageHeader.validCommand]
  | cons c command ih =>
    obtain ⟨hlow, hhigh⟩ := h c mem_cons_self
    have hne : c ≠ 0 := by
      rintro rfl
      exact absurd hlow (by decide)
    rw [cons_append, CMessageHeader.validCommand, if_neg hne,
      if_neg (by simp only [not_or, UInt8.not_lt]; exact ⟨hlow, hhigh⟩)]
    exact ih fun c' hc' => h c' (mem_cons_of_mem c hc')

theorem takeWhile_command {command : List UInt8} (h : ∀ c ∈ command, 32 ≤ c ∧ c ≤ 0x7E) (n : ℕ) :
    (command ++ replicate n 0).takeWhile (· ≠ 0) = command := by
  induction command with
  | nil => cases n <;> simp [replicate_succ]
  | cons c command ih =>
    have hne : c ≠ 0 := by
      rintro rfl
      exact absurd (h 0 mem_cons_self).1 (by decide)
    rw [cons_append, takeWhile_cons_of_pos (by simpa using hne),
      ih fun c' hc' => h c' (mem_cons_of_mem c hc')]

theorem NetMessage.dispatch_frame (E : MessageEnv) (msg : NetMessage) :
    (msg.frame E).dispatch E = some msg.content := by
  have hcommand : (msg.frame E).hdr.pchCommand =
      msg.command ++ replicate (commandSize - msg.command.length) 0 :=
    msg.pchCommand_eq E msg.payload.length
  have hvalid : (msg.frame E).hdr.isValid E = true := by
    have hstart : (msg.frame E).hdr.pchMessageStart = E.messageStart := rfl
    have hlimit : ¬ (msg.frame E).hdr.nMessageSize > maxSize := (frame_ok E msg).limit.not_gt
    simp [CMessageHeader.isValid, hstart, hcommand, validCommand_append msg.command_printable,
      hlimit]
  rw [MessageFrame.dispatch, if_pos ⟨hvalid, rfl⟩, CMessageHeader.getCommand, hcommand,
    takeWhile_command msg.command_printable]
  rfl

theorem copyInto_middle (a b c src : List UInt8) (h : src.length = b.length) (hb : b ≠ []) :
    copyInto (a ++ (b ++ c)) a.length src = .ok (a ++ (src ++ c)) := by
  have hpos := length_pos_iff.2 hb
  unfold copyInto
  rw [if_pos (by simp only [length_append]; omega), take_left, append_assoc, h,
    ← drop_drop, drop_left, drop_left]

/-- `PushMessage` writes the header and the payload. -/
theorem pushMessage_eq (E : MessageEnv) (msg : NetMessage) :
    pushMessage E msg = .ok (msg.frame E).bytes := by
  obtain ⟨front, hfront⟩ : ∃ front, front = E.messageStart ++
      (CMessageHeader.ofCommand E msg.command 0).pchCommand := ⟨_, rfl⟩
  have hfrontlen : front.length = messageSizeOffset := by
    rw [hfront, length_append, E.messageStart_length, msg.length_pchCommand E]
    rfl
  have hbegin : beginMessage E msg.command ++ msg.payload =
      front ++ (bytesLE 4 0 ++ (bytesLE 4 0 ++ msg.payload)) := by
    rw [hfront, beginMessage, CMessageHeader.serialize]
    simp only [append_assoc]
    rfl
  have hlen : (front ++ (bytesLE 4 0 ++ (bytesLE 4 0 ++ msg.payload))).length =
      messageHeaderSize + msg.payload.length := by
    simp only [length_append, hfrontlen, length_bytesLE, messageSizeOffset, messageHeaderSize]
    omega
  have hsize := copyInto_middle front (bytesLE 4 0) (bytesLE 4 0 ++ msg.payload)
    (bytesLE 4 msg.payload.length) (by simp) (by simp [bytesLE])
  have hchecksum := copyInto_middle (front ++ bytesLE 4 msg.payload.length)
    (bytesLE 4 0) msg.payload (bytesLE 4 (checksum (E.hash msg.payload))) (by simp)
    (by simp [bytesLE])
  have hoffset : (front ++ bytesLE 4 msg.payload.length).length = checksumOffset := by
    simp [hfrontlen, messageSizeOffset, checksumOffset]
  have hpayload : (front ++ (bytesLE 4 msg.payload.length ++ (bytesLE 4 0 ++ msg.payload))).drop
      messageHeaderSize = msg.payload := by
    have hhdr : (front ++ (bytesLE 4 msg.payload.length ++ bytesLE 4 0)).length =
      messageHeaderSize := by
      simp [hfrontlen, messageSizeOffset, messageHeaderSize]
    rw [← append_assoc (bytesLE 4 _), ← append_assoc front, ← hhdr, drop_left]
  rw [hfrontlen] at hsize
  rw [hoffset, append_assoc, append_assoc] at hchecksum
  unfold pushMessage endMessage
  rw [hbegin, if_neg (by rw [hlen, messageHeaderSize]; omega), hlen, Nat.add_sub_cancel_left]
  dsimp only
  rw [hsize]
  dsimp only [bind, Except.bind]
  rw [hpayload, hchecksum, hfront]
  simp only [MessageFrame.bytes, CMessageHeader.serialize, append_assoc]
  rfl

theorem sendAll_eq (E : MessageEnv) (msgs : List NetMessage) :
    sendAll E msgs = .ok ((msgs.map (NetMessage.frame E)).flatMap MessageFrame.bytes) := by
  induction msgs with
  | nil => rfl
  | cons msg msgs ih =>
    rw [sendAll, pushMessage_eq, ih]
    rfl

theorem parse_sent (E : MessageEnv) (msgs : List NetMessage) :
    messageReader.parse ((msgs.map (NetMessage.frame E)).flatMap MessageFrame.bytes) =
      ⟨msgs.map (NetMessage.frame E), false⟩ := by
  have hread : ∀ f ∈ msgs.map (NetMessage.frame E), ∀ rest,
      messageReader.read (f.bytes ++ rest) = .frame f rest := by
    intro f hf rest
    obtain ⟨msg, -, rfl⟩ := mem_map.1 hf
    exact readFrame_eq_frame.2 ⟨msg.frame_ok E, rfl⟩
  have hparse := messageReader.parse_frames hread []
  rw [append_nil, parse_nil] at hparse
  simpa using hparse

theorem dispatch_sent (E : MessageEnv) (msgs : List NetMessage) :
    (msgs.map (NetMessage.frame E)).filterMap (MessageFrame.dispatch E) =
    msgs.map NetMessage.content := by
  have hdispatch : MessageFrame.dispatch E ∘ NetMessage.frame E = some ∘ NetMessage.content := by
    funext msg
    exact NetMessage.dispatch_frame E msg
  rw [filterMap_map, hdispatch, filterMap_eq_map]

variable {msgs : List NetMessage}

theorem Session.Inv.frames_prefix (h : s.Inv E gone)
    (hsent : s.received <+: (msgs.map (NetMessage.frame E)).flatMap MessageFrame.bytes) :
    gone ++ queueFrames s.node.vRecvMsg <+: msgs.map (NetMessage.frame E) := by
  have hframes := FrameReader.parse_frames_of_prefix (R := messageReader) hsent
  rwa [h.parse, parse_sent] at hframes

theorem Session.Inv.frames_eq (h : s.Inv E gone)
    (hsent : s.received = (msgs.map (NetMessage.frame E)).flatMap MessageFrame.bytes) :
    gone ++ queueFrames s.node.vRecvMsg = msgs.map (NetMessage.frame E) := by
  have hparse := h.parse
  rw [hsent, parse_sent] at hparse
  exact (Parsed.mk.injEq .. ▸ hparse).1.symm

/-- No call in the course of events has a handler that closes the connection. -/
def KeepsConnection (events : List NetEvent) : Prop :=
  ∀ call, NetEvent.process call ∈ events → call.disconnects = false

theorem Session.Fault.of_sent (msgs : List NetMessage) {b : List UInt8}
    {e : NetEvent} (hb : b <+: (msgs.map (NetMessage.frame E)).flatMap MessageFrame.bytes)
    (hkeeps : KeepsConnection [e]) (h : Fault E b e) : False := by
  cases h with
  | refused hrefused =>
    have hsent := FrameReader.parse_refused_of_prefix hb hrefused
    rw [parse_sent] at hsent
    exact Bool.false_ne_true hsent
  | @stray call f hf hstart =>
    have hmem := (FrameReader.parse_frames_of_prefix hb).subset hf
    rw [parse_sent] at hmem
    obtain ⟨msg, -, rfl⟩ := mem_map.1 hmem
    exact hstart rfl
  | @disconnects call hdisconnects =>
    exact Bool.false_ne_true ((hkeeps call (mem_singleton.2 rfl)).symm.trans hdisconnects)

theorem arrived_cons (e : NetEvent) (events : List NetEvent) :
    arrived (e :: events) = arrived [e] ++ arrived events := by
  cases e <;> simp [arrived]

/-- A connection on which messages arrive that were sent stays open, by induction on the events. -/
theorem Session.run_sent
    (h : s.Inv E gone) (events : List NetEvent)
    (hsent : s.received ++ arrived events <+:
    (msgs.map (NetMessage.frame E)).flatMap MessageFrame.bytes) (hkeeps : KeepsConnection events) :
    ∃ s' gone', s.run E events = .ok s' ∧ s'.Inv E gone' ∧
      s'.received = s.received ++ arrived events := by
  induction events generalizing s gone with
  | nil => exact ⟨s, gone, rfl, h, (append_nil _).symm⟩
  | cons e events ih =>
    obtain ⟨s1, hstep, hsteps⟩ := step_spec h e
    have hfirst : KeepsConnection [e] := fun call hcall =>
      hkeeps call (mem_singleton.1 hcall ▸ mem_cons_self)
    rw [arrived_cons, ← append_assoc] at hsent
    rw [run, hstep]
    cases hsteps with
    | stays inv received _ =>
      rw [← received] at hsent
      obtain ⟨s', gone', hrun, hinv, hreceived⟩ :=
        ih inv hsent fun call hcall => hkeeps call (mem_cons_of_mem e hcall)
      exact ⟨s', gone', hrun, hinv, by
        rw [hreceived, received, append_assoc, ← arrived_cons]⟩
    | closed closed fault =>
      exact (fault.of_sent msgs ((prefix_append _ _).trans hsent) hfirst).elim

/-- A call that is not held up. -/
structure ProcessCall.Productive (call : ProcessCall) : Prop where
  getData : call.getDataPending = false
  room : call.sendBufferFull = false
  keeps : call.disconnects = false

/-- When everything has arrived, each call that is not held up takes a message off the queue. -/
theorem Session.run_drain (h : s.Inv E gone)
    (hsent : s.received = (msgs.map (NetMessage.frame E)).flatMap MessageFrame.bytes)
    {calls : List ProcessCall} (hcalls : ∀ call ∈ calls, call.Productive) :
    ∃ s' gone', s.run E (calls.map NetEvent.process) = .ok s' ∧ s'.Inv E gone' ∧
      s'.received = s.received ∧
      (queueFrames s'.node.vRecvMsg).length ≤
      (queueFrames s.node.vRecvMsg).length - calls.length := by
  induction calls generalizing s gone with
  | nil => exact ⟨s, gone, rfl, h, rfl, le_rfl⟩
  | cons call calls ih =>
    have hcall := hcalls call mem_cons_self
    obtain ⟨s1, hstep, hsteps⟩ := step_spec h (.process call)
    rw [map_cons, run, hstep]
    cases hsteps with
    | @stays done inv received progress =>
      have hreceived : s1.received = s.received := received.trans (append_nil _)
      obtain ⟨s', gone', hrun, hinv, hsame, hleft⟩ :=
        ih inv (hreceived.trans hsent) fun call' hcall' =>
          hcalls call' (mem_cons_of_mem call hcall')
      refine ⟨s', gone', hrun, hinv, hsame.trans hreceived, hleft.trans ?_⟩
      -- what is gone and what is left are the messages that have arrived
      have hparse := inv.parse
      rw [hreceived, h.parse] at hparse
      have hframes : gone ++ queueFrames s.node.vRecvMsg =
          gone ++ done ++ queueFrames s1.node.vRecvMsg := (Parsed.mk.injEq .. ▸ hparse).1
      rw [append_assoc] at hframes
      have hcount := congrArg List.length (append_cancel_left hframes)
      rw [length_append] at hcount
      by_cases hempty : queueFrames s.node.vRecvMsg = []
      · rw [hempty] at hcount ⊢
        simp only [length_nil] at hcount ⊢
        omega
      · have hdone : 0 < done.length :=
          length_pos_iff.2 (progress call rfl hcall.getData hcall.room hempty)
        rw [length_cons]
        omega
    | closed closed fault =>
      refine (fault.of_sent msgs ?_ ?_).elim
      · rw [hsent, arrived, arrived, append_nil]
      · intro call' hcall'
        cases mem_singleton.1 hcall'
        exact hcall.keeps

/-- **Messages that are sent are dispatched in order, once each, with their commands and payloads**,
however their stream is cut and whenever `ProcessMessages` is called; and any stream has the same
messages, or is refused, however it is cut, with every access within its buffer. -/
theorem messages_dispatched (E : MessageEnv) :
    (∀ msgs : List NetMessage, ∃ stream, sendAll E msgs = .ok stream ∧
      ∀ events : List NetEvent, arrived events <+: stream → KeepsConnection events →
        ∃ s, Session.start.run E events = .ok s ∧ s.node.fDisconnect = false ∧
          s.dispatched <+: msgs.map NetMessage.content ∧
          (arrived events = stream → ∀ calls : List ProcessCall, (∀ call ∈ calls, call.Productive) →
            msgs.length ≤ calls.length →
            ∃ s', s.run E (calls.map NetEvent.process) = .ok s' ∧
              s'.dispatched = msgs.map NetMessage.content)) ∧
      (∀ chunks : List (List UInt8), ∃ q fOk, receiveAll E [] chunks = .ok (q, fOk) ∧
        messageReader.parse chunks.flatten = ⟨queueFrames q, !fOk⟩) ∧
      ∀ events : List NetEvent, ∃ s, Session.start.run E events = .ok s := by
  refine ⟨fun msgs => ⟨_, sendAll_eq E msgs, fun events hsent hkeeps => ?_⟩,
    fun chunks => receiveAll_parse E queueWf_nil chunks,
    fun events => Session.run_ok (Session.inv_start E) events⟩
  obtain ⟨s, gone, hrun, hinv, hreceived⟩ :=
    Session.run_sent (Session.inv_start E) events hsent hkeeps
  have hreceived : s.received = arrived events := hreceived
  rw [← hreceived] at hsent
  have hgone := (prefix_append gone _).trans (hinv.frames_prefix hsent)
  have hdispatched := hgone.filterMap (MessageFrame.dispatch E)
  rw [dispatch_sent, ← hinv.dispatched] at hdispatched
  refine ⟨s, hrun, hinv.connected, hdispatched, fun hstream calls hcalls hlen => ?_⟩
  have hsent' : s.received = (msgs.map (NetMessage.frame E)).flatMap MessageFrame.bytes :=
    hreceived.trans hstream
  obtain ⟨s', gone', hrun', hinv', hsame, hleft⟩ := Session.run_drain hinv hsent' hcalls
  refine ⟨s', hrun', ?_⟩
  have hcount := congrArg List.length (hinv.frames_eq hsent')
  rw [length_append, length_map] at hcount
  have hempty : queueFrames s'.node.vRecvMsg = [] := length_eq_zero_iff.1 (by omega)
  have hframes := hinv'.frames_eq (hsame.trans hsent')
  rw [hempty, append_nil] at hframes
  rw [hinv'.dispatched, hframes, dispatch_sent]

/-- The main network, with a hash that adds up the bytes. -/
def sumEnv : MessageEnv where
  hash b := BitVec.ofNat 256 (b.map UInt8.toNat).sum
  messageStart := [0x4e, 0xaa, 0x32, 0x1c]
  messageStart_length := rfl

/-- A `ping`. -/
def pingMessage : NetMessage where
  command := [0x70, 0x69, 0x6e, 0x67]
  payload := [1, 2, 3, 4, 5, 6, 7, 8]
  command_length := by decide
  command_printable := by decide +kernel
  payload_length := by decide

/-- A `ping` that arrives in three pieces. -/
theorem messages_dispatched_ping : ∃ stream, sendAll sumEnv [pingMessage] = .ok stream ∧
      ∃ s, Session.start.run sumEnv [.receive (stream.take 5), .process ⟨false, false, false⟩,
        .receive ((stream.drop 5).take 20), .receive (stream.drop 25)] = .ok s ∧
      ∃ s', s.run sumEnv [.process ⟨false, false, false⟩] = .ok s' ∧
        s'.dispatched = [pingMessage.content] := by
  obtain ⟨stream, hsend, hrun⟩ := (messages_dispatched sumEnv).1 [pingMessage]
  have harrived : arrived [.receive (stream.take 5), .process ⟨false, false, false⟩,
      .receive ((stream.drop 5).take 20), .receive (stream.drop 25)] = stream := by
    have hdrop : stream.drop 25 = (stream.drop 5).drop 20 := by rw [drop_drop]
    simp only [arrived, append_nil]
    rw [hdrop, take_append_drop, take_append_drop]
  have hkeeps : KeepsConnection [.receive (stream.take 5), .process ⟨false, false, false⟩,
      .receive ((stream.drop 5).take 20), .receive (stream.drop 25)] := by
    intro call hcall
    have hcall' : call = ⟨false, false, false⟩ := by simpa using hcall
    rw [hcall']
  obtain ⟨s, hs, -, -, hdrain⟩ := hrun _ ⟨[], by rw [append_nil, harrived]⟩ hkeeps
  obtain ⟨s', hs', hdispatched⟩ := hdrain harrived [⟨false, false, false⟩] (by
    intro call hcall
    rw [mem_singleton.1 hcall]
    exact ⟨rfl, rfl, rfl⟩) le_rfl
  exact ⟨stream, hsend, s, hs, s', hs', hdispatched⟩

end Espers
