import Neb2Amqp.Librabbitmq.Frames

/-!
# Receiving frames

`amqp_handle_input` of amqp_connection.c: octets of the peer come in as they please, and are
put together until a frame is complete. Sizes are computed as the source does, in 32 bits
where it does; where a computed size leads out of a buffer the model stops.
-/

namespace Neb2Amqp

open CLib

/-- `amqp_connection_state_enum`. -/
inductive ConnectionState
  | idle
  | initial
  | header
  | body
  deriving DecidableEq

/-- The members of the connection that receiving uses. `block` is what `inbound_buffer` points
to, unless that is the connection's own header buffer. -/
structure Inbound where
  state : ConnectionState
  headerBuffer : Bytes
  block : Option Bytes
  inboundOffset : Nat
  targetSize : Nat

namespace Inbound

/-- A new connection. The protocol header of a server is eight bytes long. -/
def new : Inbound := ⟨.initial, List.replicate 8 0, none, 0, 8⟩

def returnToIdle (s : Inbound) : Inbound := ⟨.idle, s.headerBuffer, none, 0, headerSize⟩

def inboundBuffer (s : Inbound) : Bytes := s.block.getD s.headerBuffer

def setBuffer (s : Inbound) (buffer : Bytes) : Inbound :=
  match s.block with
  | some _ => { s with block := some buffer }
  | none => { s with headerBuffer := buffer }

/-- What `consume_data` finds room for. The difference of the two sizes is unsigned. -/
def room (s : Inbound) : Nat :=
  if s.inboundOffset ≤ s.targetSize then s.targetSize - s.inboundOffset
  else 2 ^ 64 + s.targetSize - s.inboundOffset

end Inbound

/-- `consume_data`: how many octets were taken, and the connection after it. -/
def consumeData (s : Inbound) (receivedData : Bytes) : Except WireFault (Nat × Inbound) :=
  let bytesConsumed := min s.room receivedData.length
  if s.inboundBuffer.length < s.inboundOffset + bytesConsumed then .error .outOfBounds
  else
    let buffer := putAt s.inboundBuffer s.inboundOffset (receivedData.take bytesConsumed)
    .ok (bytesConsumed,
      { s.setBuffer buffer with inboundOffset := s.inboundOffset + bytesConsumed })

/-- The payload of a frame without the first `fixed` octets of it. For a frame that is too short
for these the computed length wraps around, and what is read then is not the frame's. -/
def decodePayload {α : Type} (rawFrame : Bytes) (targetSize fixed : Nat) (r : AmqpDecoder α) :
    Except WireFault α :=
  if targetSize < headerSize + fixed + footerSize then .error .outOfBounds
  else
    let encoded := (rawFrame.drop (headerSize + fixed)).take (targetSize - headerSize - fixed - footerSize)
    match r encoded 0 with
    | .ok (a, _) => .ok a
    | .error halt => .error (.ofHalt halt)

/-- The number in `width` octets from `offset` on, as `amqp_d##bits` reads it. -/
def numberAt (width offset : Nat) (rawFrame : Bytes) : Nat :=
  bigEndianValue ((rawFrame.drop offset).take width)

section

variable (fresh : ∀ c : PropertyClass, Members c.layout)

def decodeMethodPayload (rawFrame : Bytes) (targetSize : Nat) : Except WireFault FramePayload := do
  let id : UInt32 := .ofNat (numberAt 4 headerSize rawFrame)
  let m ← decodePayload rawFrame targetSize 4 (amqpDecodeMethod id)
  return .method m

def decodeHeaderPayload (rawFrame : Bytes) (targetSize : Nat) : Except WireFault FramePayload := do
  let classId : UInt16 := .ofNat (numberAt 2 headerSize rawFrame)
  let bodySize : UInt64 := .ofNat (numberAt 8 (headerSize + 4) rawFrame)
  let properties ← decodePayload rawFrame targetSize 12 (amqpDecodeProperties classId fresh)
  return .header bodySize properties

def decodeBodyPayload (rawFrame : Bytes) (targetSize : Nat) : Except WireFault FramePayload := do
  let fragment ← decodePayload rawFrame targetSize 0 fun encoded _ => .ok (encoded, encoded.length)
  return .body fragment

/-- The last part of `amqp_handle_input`, on a frame that is complete. No frame is handed out for
a type that is not known. -/
def decodeFrame (rawFrame : Bytes) (targetSize : Nat) : Except WireFault (Option Frame) :=
  if rawFrame[targetSize - 1]? ≠ some amqpFrameEnd then .error (.status .badAmqpData)
  else
    let frameType : UInt8 := .ofNat (numberAt 1 0 rawFrame)
    let channel : UInt16 := .ofNat (numberAt 2 1 rawFrame)
    let handOut (payload : Except WireFault FramePayload) := do
      let payload ← payload
      return some ⟨channel, payload⟩
    if frameType = amqpFrameMethod then handOut (decodeMethodPayload rawFrame targetSize)
    else if frameType = amqpFrameHeader then handOut (decodeHeaderPayload fresh rawFrame targetSize)
    else if frameType = amqpFrameBody then handOut (decodeBodyPayload rawFrame targetSize)
    else if frameType = amqpFrameHeartbeat then handOut (.ok .heartbeat)
    else .ok none

/-- `CONNECTION_STATE_BODY`. -/
def finishFrame (bytesConsumed : Nat) (s : Inbound) : Except WireFault (Nat × Option Frame × Inbound) := do
  let frame ← decodeFrame fresh s.inboundBuffer s.targetSize
  return (bytesConsumed, frame, s.returnToIdle)

/-- `CONNECTION_STATE_HEADER`: the frame gets a block of its own, which starts with the octets
that came so far, and takes what else there is. A block is a multiple of eight bytes long, and
there is none for a size of 0. -/
def startFrame (bytesConsumed : Nat) (receivedData : Bytes) (s : Inbound) :
    Except WireFault (Nat × Option Frame × Inbound) :=
  let targetSize := (UInt32.ofNat (numberAt 4 3 s.inboundBuffer) + 8).toNat
  if targetSize = 0 then .error (.status .noMemory)
  else do
    let block := putAt (List.replicate ((targetSize + 7) / 8 * 8) 0) 0 (s.inboundBuffer.take headerSize)
    let (more, s) ← consumeData ⟨.body, s.headerBuffer, some block, s.inboundOffset, targetSize⟩ receivedData
    if s.inboundOffset < s.targetSize then return (bytesConsumed + more, none, s)
    else finishFrame fresh (bytesConsumed + more) s

def protocolHeaderFrame (rawFrame : Bytes) : Frame :=
  ⟨0, .protocolHeader (.ofNat (numberAt 1 4 rawFrame)) (.ofNat (numberAt 1 5 rawFrame))
    (.ofNat (numberAt 1 6 rawFrame)) (.ofNat (numberAt 1 7 rawFrame))⟩

/-- The octets that were taken, a frame if one is complete, and the connection. -/
def amqpHandleInput (s : Inbound) (receivedData : Bytes) :
    Except WireFault (Nat × Option Frame × Inbound) :=
  if receivedData = [] then .ok (0, none, s)
  else do
    let s := if s.state = .idle then { s with state := .header } else s
    let (bytesConsumed, s) ← consumeData s receivedData
    if s.inboundOffset < s.targetSize then return (bytesConsumed, none, s)
    else match s.state with
      | .initial =>
          if s.inboundBuffer.take 4 = (CString.lit "AMQP").bytes then
            return (bytesConsumed, some (protocolHeaderFrame s.inboundBuffer), s.returnToIdle)
          else startFrame fresh bytesConsumed (receivedData.drop bytesConsumed) s
      | .header => startFrame fresh bytesConsumed (receivedData.drop bytesConsumed) s
      | .body => finishFrame fresh bytesConsumed s
      | .idle => .error .aborted

/-! ## The loop over what was received -/

/-- `consume_one_frame` while there is data in the buffer. Every call takes an octet, so that
the length of the data is enough for `rounds`. -/
def consumeFrames : Nat → Inbound → Bytes → List Frame × Except WireFault Inbound
  | _, s, [] => ([], .ok s)
  | 0, _, _ :: _ => ([], .error .unfinished)
  | rounds + 1, s, data =>
      match amqpHandleInput fresh s data with
      | .error fault => ([], .error fault)
      | .ok (bytesConsumed, frame, s) =>
          let rest := consumeFrames rounds s (data.drop bytesConsumed)
          (frame.toList ++ rest.1, rest.2)

/-- One chunk after the other, as the socket hands them out. -/
def receiveChunks : Inbound → List Bytes → List Frame × Except WireFault Inbound
  | s, [] => ([], .ok s)
  | s, chunk :: chunks =>
      match consumeFrames fresh chunk.length s chunk with
      | (frames, .error fault) => (frames, .error fault)
      | (frames, .ok s) =>
          let rest := receiveChunks s chunks
          (frames ++ rest.1, rest.2)

end

end Neb2Amqp
