import Neb2Amqp.Librabbitmq.Properties

/-!
# Frames

`amqp_send_frame` of amqp_connection.c: a method, a content header, a piece of a body or a
heartbeat with its channel becomes one frame on the wire. Methods and headers are built in
the outbound buffer, a piece of a body is sent from where it lies.
-/

namespace Neb2Amqp

open CLib

/-- `payload` of an `amqp_frame_t`, by its `frame_type`. -/
inductive FramePayload
  | method (m : MethodCall)
  | header (bodySize : UInt64) (properties : Properties)
  | body (fragment : Bytes)
  | heartbeat
  /-- `AMQP_PSEUDOFRAME_PROTOCOL_HEADER`, which is only received. -/
  | protocolHeader (transportHigh transportLow versionMajor versionMinor : UInt8)

structure Frame where
  channel : UInt16
  payload : FramePayload

/-- How the code on the wire goes wrong: with a status, by leaving a buffer, by `amqp_abort`, or
because a bound on the depth was too low. -/
inductive WireFault
  | status (status : AmqpStatus)
  | outOfBounds
  | aborted
  | unfinished
  deriving DecidableEq

def WireFault.ofHalt : Halt AmqpStatus → WireFault
  | .unfinished => .unfinished
  | .failed s => .status s

def amqpFrameMethod : UInt8 := 1

def amqpFrameHeader : UInt8 := 2

def amqpFrameBody : UInt8 := 3

def amqpFrameHeartbeat : UInt8 := 8

def amqpFrameEnd : UInt8 := 206

/-- 7 bytes up front, then payload, then 1 byte footer. -/
def headerSize : Nat := 7

def footerSize : Nat := 1

/-- The seven octets up front. -/
def frameHeader (frameType : UInt8) (channel : UInt16) (size : Nat) : Bytes :=
  frameType :: (bigEndian 2 channel.toNat ++ bigEndian 4 size)

@[simp] theorem frameHeader_length (frameType : UInt8) (channel : UInt16) (size : Nat) :
    (frameHeader frameType channel size).length = headerSize := by
  simp [frameHeader, headerSize]

/-! ## Sending -/

/-- The part of the outbound buffer that is left between `fixed` octets of the payload and the
frame's end, encoded into. -/
def encodePayload (outbound : Bytes) (fixed : Nat) (w : AmqpEncoder) : Except WireFault Bytes :=
  if outbound.length < headerSize + fixed + footerSize then .error .outOfBounds
  else
    let encoded :=
      (outbound.drop (headerSize + fixed)).take (outbound.length - headerSize - fixed - footerSize)
    match w encoded 0 with
    | .ok (encoded, offset) => .ok (encoded.take offset)
    | .error status => .error (.status status)

/-- The frame with this payload, as it stands in the outbound buffer in the end. -/
def wholeFrame (frameType : UInt8) (channel : UInt16) (payload : Bytes) : Bytes :=
  frameHeader frameType channel payload.length ++ (payload ++ [amqpFrameEnd])

/-- What is handed to the socket, one piece for each `iov` or send. -/
def amqpSendFrame (outbound : Bytes) (frame : Frame) : Except WireFault (List Bytes) :=
  if outbound.length < headerSize then .error .outOfBounds
  else match frame.payload with
    | .body fragment =>
        .ok [frameHeader amqpFrameBody frame.channel fragment.length, fragment, [amqpFrameEnd]]
    | .method m => do
        let encoded ← encodePayload outbound 4 (amqpEncodeMethod m)
        return [wholeFrame amqpFrameMethod frame.channel (bigEndian 4 m.method.id.toNat ++ encoded)]
    | .header bodySize properties => do
        let encoded ← encodePayload outbound 12 (amqpEncodeProperties properties)
        -- Behind the class goes the weight, which is always 0.
        let fixed :=
          bigEndian 2 properties.cls.id.toNat ++ (bigEndian 2 0 ++ bigEndian 8 bodySize.toNat)
        return [wholeFrame amqpFrameHeader frame.channel (fixed ++ encoded)]
    | .heartbeat =>
        if outbound.length < headerSize + footerSize then .error .outOfBounds
        else .ok [wholeFrame amqpFrameHeartbeat frame.channel []]
    | .protocolHeader .. => .error (.status .invalidParameter)

/-! ## The format -/

namespace FramePayload

def frameType : FramePayload → UInt8
  | method _ => amqpFrameMethod
  | header .. => amqpFrameHeader
  | body _ => amqpFrameBody
  | heartbeat => amqpFrameHeartbeat
  | protocolHeader .. => 'A'.toUInt8

/-- The octets between the header and the end of the frame. -/
def octets : FramePayload → Bytes
  | method m => bigEndian 4 m.method.id.toNat ++ m.octets
  | header bodySize properties =>
      bigEndian 2 properties.cls.id.toNat ++ (bigEndian 2 0 ++ bigEndian 8 bodySize.toNat) ++
        properties.octets
  | body fragment => fragment
  | heartbeat => []
  | protocolHeader .. => []

/-- All lengths fit into the fields they are sent in, and it is no pseudo frame. -/
def Sized (p : FramePayload) : Prop :=
  p.octets.length < 2 ^ 32 - 8 ∧
    match p with
    | method m => m.Sized
    | header _ properties => properties.Sized
    | protocolHeader .. => False
    | _ => True

/-- A method or a content header, which is built in the outbound buffer. -/
def InBuffer : FramePayload → Bool
  | method _ | header .. | heartbeat => true
  | _ => false

end FramePayload

/-- The octets of a frame. -/
def Frame.octets (f : Frame) : Bytes := wholeFrame f.payload.frameType f.channel f.payload.octets

theorem wholeFrame_length (frameType : UInt8) (channel : UInt16) (payload : Bytes) :
    (wholeFrame frameType channel payload).length = payload.length + 8 := by
  rw [wholeFrame, List.length_append, List.length_append, frameHeader_length, headerSize,
    List.length_singleton]
  omega

theorem Frame.octets_length (f : Frame) : f.octets.length = f.payload.octets.length + 8 :=
  wholeFrame_length _ _ _

theorem encodePayload_encodes {outbound : Bytes} {fixed : Nat} {w : AmqpEncoder} {b : Bytes}
    (hw : Encodes w b) (hroom : headerSize + fixed + b.length + footerSize ≤ outbound.length) :
    encodePayload outbound fixed w = .ok b := by
  have hlength : ((outbound.drop (headerSize + fixed)).take
      (outbound.length - headerSize - fixed - footerSize)).length =
        outbound.length - headerSize - fixed - footerSize := by
    rw [List.length_take, List.length_drop]
    omega
  have hfits := hw.fits ((outbound.drop (headerSize + fixed)).take
      (outbound.length - headerSize - fixed - footerSize)) 0 (by rw [hlength]; omega)
  have htake := @putAt_take ((outbound.drop (headerSize + fixed)).take
      (outbound.length - headerSize - fixed - footerSize)) b 0 (by rw [hlength]; omega)
  unfold encodePayload
  rw [if_neg (by omega)]
  simp only [hfits, htake]
  simp

/-- A frame that fits is handed to the socket, octet for octet. -/
theorem amqpSendFrame_ok {outbound : Bytes} {f : Frame} (hsized : f.payload.Sized)
    (hbuffer : headerSize ≤ outbound.length)
    (hroom : f.payload.InBuffer → f.octets.length ≤ outbound.length) :
    ∃ pieces, amqpSendFrame outbound f = .ok pieces ∧ pieces.flatten = f.octets := by
  have hlength := f.octets_length
  unfold amqpSendFrame Frame.octets
  rw [if_neg (by omega)]
  cases hpayload : f.payload with
  | method m =>
      rw [hpayload] at hroom hlength
      have hshort := hroom rfl
      rw [hlength, FramePayload.octets, List.length_append, bigEndian_length] at hshort
      have hencoded := encodePayload_encodes (encodes_amqpEncodeMethod m)
        (show headerSize + 4 + m.octets.length + footerSize ≤ outbound.length by
          unfold headerSize footerSize
          omega)
      exact ⟨_, by simp only [hencoded]; rfl, by simp [FramePayload.frameType, FramePayload.octets]⟩
  | header bodySize properties =>
      rw [hpayload] at hroom hlength hsized
      have hshort := hroom rfl
      rw [hlength, FramePayload.octets, List.length_append, List.length_append, List.length_append,
        bigEndian_length, bigEndian_length, bigEndian_length] at hshort
      have hencoded := encodePayload_encodes (encodes_amqpEncodeProperties hsized.2)
        (show headerSize + 12 + properties.octets.length + footerSize ≤ outbound.length by
          unfold headerSize footerSize
          omega)
      exact ⟨_, by simp only [hencoded]; rfl, by simp [FramePayload.frameType, FramePayload.octets]⟩
  | body fragment =>
      exact ⟨_, rfl, by simp [FramePayload.frameType, FramePayload.octets, wholeFrame]⟩
  | heartbeat =>
      rw [hpayload] at hroom hlength
      have hshort := hroom rfl
      rw [hlength] at hshort
      refine ⟨[wholeFrame amqpFrameHeartbeat f.channel []], ?_,
        by simp [FramePayload.frameType, FramePayload.octets]⟩
      exact if_neg (by unfold headerSize footerSize; omega)
  | protocolHeader a b c d =>
      rw [hpayload] at hsized
      exact absurd hsized.2 not_false

end Neb2Amqp
