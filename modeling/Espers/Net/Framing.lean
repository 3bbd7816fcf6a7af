import Espers.Core.Codec
import Espers.Lib.Framing

/-!
# Messages on the wire

A message is sent as a header of 24 bytes and its payload.  What arrives is absorbed as it comes:
into the header buffer first, then into a data buffer that is grown ahead of the data.

* `BeginMessage`, `EndMessage` : `beginMessage`, `endMessage`; `sendAll` is the stream that a list
  of messages makes.
* `ReceiveMsgBytes`, `ProcessMessages` : `receiveMsgBytes`, `processMessages`.  An access outside a
  buffer is a crash.
* `Session` : a connection, with all the bytes that arrived and all the messages that were
  dispatched.
-/

namespace Espers

open Exec Wire

/-! ### The header -/

/-- The hash of messages, and the message start of the network. -/
structure MessageEnv where
  hash : List UInt8 → Uint256
  messageStart : List UInt8
  messageStart_length : messageStart.length = 4

/-- `CMessageHeader`. -/
structure CMessageHeader where
  pchMessageStart : List UInt8
  pchCommand : List UInt8
  nMessageSize : ℕ
  nChecksum : ℕ
  deriving DecidableEq

/-- `COMMAND_SIZE`. -/
def commandSize : ℕ := 12

/-- `HEADER_SIZE`. -/
def messageHeaderSize : ℕ := 24

/-- `MESSAGE_SIZE_OFFSET`. -/
def messageSizeOffset : ℕ := 16

/-- `CHECKSUM_OFFSET`. -/
def checksumOffset : ℕ := 20

namespace CMessageHeader

/-- The constructor for a command: `strncpy` copies at most so many characters, and fills up with
zeros. -/
def ofCommand (E : MessageEnv) (pszCommand : List UInt8) (nMessageSizeIn : ℕ) : CMessageHeader where
  pchMessageStart := E.messageStart
  pchCommand := pszCommand.take commandSize ++ List.replicate (commandSize - pszCommand.length) 0
  nMessageSize := nMessageSizeIn
  nChecksum := 0

/-- The fields one by one. -/
def serialize (hdr : CMessageHeader) : List UInt8 :=
  hdr.pchMessageStart ++ (hdr.pchCommand ++ (bytesLE 4 hdr.nMessageSize ++ bytesLE 4 hdr.nChecksum))

/-- The fields are read one by one. -/
def unserialize : Reader CMessageHeader := fun b =>
  (readBytes 4 b).bind fun (pchMessageStart, b) =>
  (readBytes commandSize b).bind fun (pchCommand, b) =>
  (readWord 4 b).bind fun (nMessageSize, b) =>
  (readWord 4 b).bind fun (nChecksum, b) =>
  some (⟨pchMessageStart, pchCommand, nMessageSize, nChecksum⟩, b)

/-- `GetCommand`: the characters before the first zero. -/
def getCommand (hdr : CMessageHeader) : List UInt8 := hdr.pchCommand.takeWhile (· ≠ 0)

/-- The loop of `IsValid` over the characters of a command. -/
def validCommand : List UInt8 → Bool
  | [] => true
  | c :: rest =>
    -- must be all zeros after the first zero
    if c = 0 then rest.all (· = 0)
    else if c < 32 ∨ c > 0x7E then false
    else validCommand rest

/-- `IsValid`. -/
def isValid (E : MessageEnv) (hdr : CMessageHeader) : Bool :=
  if hdr.pchMessageStart ≠ E.messageStart then false
  else if !validCommand hdr.pchCommand then false
  else if hdr.nMessageSize > maxSize then false
  else true

/-- Every field has its size. -/
structure Fits (hdr : CMessageHeader) : Prop where
  start : hdr.pchMessageStart.length = 4
  command : hdr.pchCommand.length = commandSize
  size : hdr.nMessageSize < 256 ^ 4
  checksum : hdr.nChecksum < 256 ^ 4

end CMessageHeader

/-- The first four bytes of a hash. -/
def checksum (hash : Uint256) : ℕ := hash.toNat % 256 ^ 4

/-- `memcpy(&buf[pos], src, …)`. -/
def copyInto (buf : List UInt8) (pos : ℕ) (src : List UInt8) : Except Stop (List UInt8) :=
  if pos < buf.length ∧ pos + src.length ≤ buf.length then
    .ok (buf.take pos ++ src ++ buf.drop (pos + src.length))
  else .error (.crash "access outside a buffer")

/-- `buf.resize(n)`. -/
def resize (buf : List UInt8) (n : ℕ) : List UInt8 :=
    buf.take n ++ List.replicate (n - buf.length) 0

/-- `BeginMessage`, with `ssSend` empty as it asserts. -/
def beginMessage (E : MessageEnv) (pszCommand : List UInt8) : List UInt8 :=
  (CMessageHeader.ofCommand E pszCommand 0).serialize

/-- `EndMessage`: what is appended to `vSendMsg`. -/
def endMessage (E : MessageEnv) (ssSend : List UInt8) : Except Stop (List UInt8) :=
  if ssSend.length = 0 then .ok []
  else do
    let nSize := ssSend.length - messageHeaderSize
    let ssSend ← copyInto ssSend messageSizeOffset (bytesLE 4 nSize)
    let nChecksum := checksum (E.hash (ssSend.drop messageHeaderSize))
    copyInto ssSend checksumOffset (bytesLE 4 nChecksum)

/-- A message of the program: its command is a C string of at most `COMMAND_SIZE` printable
characters, and its payload has at most `MAX_SIZE` bytes. -/
structure NetMessage where
  command : List UInt8
  payload : List UInt8
  command_length : command.length ≤ commandSize
  command_printable : ∀ c ∈ command, 32 ≤ c ∧ c ≤ 0x7E
  payload_length : payload.length ≤ maxSize

/-- What a message is dispatched as. -/
def NetMessage.content (msg : NetMessage) : List UInt8 × List UInt8 := (msg.command, msg.payload)

/-- `PushMessage`. -/
def pushMessage (E : MessageEnv) (msg : NetMessage) : Except Stop (List UInt8) :=
  endMessage E (beginMessage E msg.command ++ msg.payload)

/-- The stream of messages that are sent one after the other. -/
def sendAll (E : MessageEnv) : List NetMessage → Except Stop (List UInt8)
  | [] => .ok []
  | msg :: msgs => do
    let b ← pushMessage E msg
    let bs ← sendAll E msgs
    .ok (b ++ bs)

/-! ### Receiving -/

/-- `CNetMessage`. -/
structure CNetMessage where
  /-- Reading the header or the data. -/
  inData : Bool
  hdrbuf : List UInt8
  hdr : CMessageHeader
  nHdrPos : ℕ
  vRecv : List UInt8
  nDataPos : ℕ

namespace CNetMessage

/-- A new message; its header is the default one. -/
def new (E : MessageEnv) : CNetMessage where
  inData := false
  hdrbuf := List.replicate 24 0
  hdr := ⟨E.messageStart, List.replicate commandSize 0, 2 ^ 32 - 1, 0⟩
  nHdrPos := 0
  vRecv := []
  nDataPos := 0

/-- `complete`. -/
def complete (msg : CNetMessage) : Bool := msg.inData && msg.hdr.nMessageSize == msg.nDataPos

/-- `readHeader`: the message, and how many bytes were handled, or nothing for `-1`. -/
def readHeader (msg : CNetMessage) (pch : List UInt8) : Except Stop (CNetMessage × Option ℕ) := do
  -- copy data to temporary parsing buffer
  let nRemaining := 24 - msg.nHdrPos
  let nCopy := min nRemaining pch.length
  let hdrbuf ← copyInto msg.hdrbuf msg.nHdrPos (pch.take nCopy)
  let msg := { msg with hdrbuf := hdrbuf, nHdrPos := msg.nHdrPos + nCopy }
  -- if header incomplete, exit
  if msg.nHdrPos < 24 then .ok (msg, some nCopy)
  else
    match CMessageHeader.unserialize msg.hdrbuf with
    | none => .ok (msg, none)
    | some (hdr, hdrbuf) =>
      let msg := { msg with hdr := hdr, hdrbuf := hdrbuf }
      -- reject messages larger than MAX_SIZE
      if hdr.nMessageSize > maxSize then .ok (msg, none)
      else .ok ({ msg with inData := true }, some nCopy)

/-- `readData`. -/
def readData (msg : CNetMessage) (pch : List UInt8) : Except Stop (CNetMessage × Option ℕ) := do
  let nRemaining := msg.hdr.nMessageSize - msg.nDataPos
  let nCopy := min nRemaining pch.length
  let vRecv :=
    if msg.vRecv.length < msg.nDataPos + nCopy then
      -- allocate up to 256 KiB ahead, but never more than the total message size
      resize msg.vRecv (min msg.hdr.nMessageSize (msg.nDataPos + nCopy + 256 * 1024))
    else msg.vRecv
  let vRecv ← copyInto vRecv msg.nDataPos (pch.take nCopy)
  .ok ({ msg with vRecv := vRecv, nDataPos := msg.nDataPos + nCopy }, some nCopy)

/-- Absorb network data. -/
def absorb (msg : CNetMessage) (pch : List UInt8) : Except Stop (CNetMessage × Option ℕ) :=
  if !msg.inData then msg.readHeader pch else msg.readData pch

end CNetMessage

/-- The messages before the one to be continued, and this one: the last, or a new one if there is
none or it is complete. -/
def currentMessage (E : MessageEnv) (vRecvMsg : List CNetMessage) :
    List CNetMessage × CNetMessage :=
  match vRecvMsg.getLast? with
  | none => (vRecvMsg, .new E)
  | some msg => if msg.complete then (vRecvMsg, .new E) else (vRecvMsg.dropLast, msg)

/-- `ReceiveMsgBytes`; the first argument bounds the number of passes of its loop. -/
def receiveLoop (E : MessageEnv) : ℕ → List CNetMessage → List UInt8 →
    Except Stop (List CNetMessage × Bool)
  | _, vRecvMsg, [] => .ok (vRecvMsg, true)
  | 0, _, _ => .error (.crash "the loop does not end")
  | passes + 1, vRecvMsg, pch => do
    let (before, msg) := currentMessage E vRecvMsg
    let (msg, handled) ← msg.absorb pch
    match handled with
    | none => .ok (before ++ [msg], false)
    | some handled => receiveLoop E passes (before ++ [msg]) (pch.drop handled)

/-- `ReceiveMsgBytes`: every pass handles a byte. -/
def receiveMsgBytes (E : MessageEnv) (vRecvMsg : List CNetMessage) (pch : List UInt8) :
    Except Stop (List CNetMessage × Bool) :=
  receiveLoop E pch.length vRecvMsg pch

/-! ### Processing -/

/-- What a call of `ProcessMessages` meets: requests that are not answered yet, a send buffer that
is too full, and a handler that closes the connection. -/
structure ProcessCall where
  getDataPending : Bool
  sendBufferFull : Bool
  disconnects : Bool

/-- The loop of `ProcessMessages`: its answer, the messages from the iterator on, and the command
and payload that are dispatched. -/
def processLoop (E : MessageEnv) (call : ProcessCall) :
    List CNetMessage → Except Stop (Bool × List CNetMessage × Option (List UInt8 × List UInt8))
  | [] => .ok (true, [], none)
  | msg :: rest =>
    -- don't bother if send buffer is too full to respond anyway
    if call.sendBufferFull then .ok (true, msg :: rest, none)
    -- end, if an incomplete message is found
    else if !msg.complete then .ok (true, msg :: rest, none)
    -- scan for message start
    else if msg.hdr.pchMessageStart ≠ E.messageStart then .ok (false, rest, none)
    else if !msg.hdr.isValid E then processLoop E call rest
    else if msg.vRecv.length < msg.hdr.nMessageSize then .error (.crash "access outside a buffer")
    else if checksum (E.hash (msg.vRecv.take msg.hdr.nMessageSize)) ≠ msg.hdr.nChecksum then
      processLoop E call rest
    else .ok (true, rest, some (msg.hdr.getCommand, msg.vRecv))

/-- The fields of `CNode` on receiving. -/
structure CNode where
  vRecvMsg : List CNetMessage
  fDisconnect : Bool

/-- `CloseSocketDisconnect`. -/
def CNode.closeSocketDisconnect (_ : CNode) : CNode := { vRecvMsg := [], fDisconnect := true }

/-- `ProcessMessages`. -/
def processMessages (E : MessageEnv) (call : ProcessCall) (pfrom : CNode) :
    Except Stop (Bool × CNode × Option (List UInt8 × List UInt8)) :=
  -- this maintains the order of responses
  if call.getDataPending ∨ pfrom.fDisconnect then .ok (true, pfrom, none)
  else do
    let (fOk, rest, dispatched) ← processLoop E call pfrom.vRecvMsg
    -- in case the connection got shut down, its receive buffer was wiped
    if dispatched.isSome ∧ call.disconnects then .ok (fOk, pfrom.closeSocketDisconnect, dispatched)
    else .ok (fOk, { pfrom with vRecvMsg := rest }, dispatched)

/-- A connection, with the bytes that arrived and the messages that were dispatched. -/
structure Session where
  node : CNode
  received : List UInt8
  dispatched : List (List UInt8 × List UInt8)

/-- A connection that was just made. -/
def Session.start : Session := ⟨⟨[], false⟩, [], []⟩

/-- What happens to a connection: bytes arrive, or `ProcessMessages` is called. -/
inductive NetEvent where
  | receive (chunk : List UInt8)
  | process (call : ProcessCall)

/-- The threads of the program do nothing for a connection that is closed, and close one whose call
fails. -/
def Session.step (E : MessageEnv) (s : Session) : NetEvent → Except Stop Session
  | .receive chunk =>
    if s.node.fDisconnect then .ok s
    else do
      let (vRecvMsg, fOk) ← receiveMsgBytes E s.node.vRecvMsg chunk
      let node := { s.node with vRecvMsg := vRecvMsg }
      .ok { s with
        node := if fOk then node else node.closeSocketDisconnect
        received := s.received ++ chunk }
  | .process call =>
    if s.node.fDisconnect then .ok s
    else do
      let (fOk, node, dispatched) ← processMessages E call s.node
      .ok { s with
        node := if fOk then node else node.closeSocketDisconnect
        dispatched := s.dispatched ++ dispatched.toList }

/-- One event after the other. -/
def Session.run (E : MessageEnv) : Session → List NetEvent → Except Stop Session
  | s, [] => .ok s
  | s, e :: events => do
    let s ← s.step E e
    s.run E events

end Espers
