import Neb2Amqp.Librabbitmq.Receiving

/-!
# Frames there and back

What was sent with `amqp_send_frame` is received by `amqp_handle_input`: one frame on its
own, and a stream of frames in chunks of any size, on a connection that is idle and on a new
one.
-/

namespace Neb2Amqp

open CLib

variable (fresh : ∀ c : PropertyClass, Members c.layout)

/-- What the other end makes of a payload. -/
def FramePayload.arrived : FramePayload → FramePayload
  | .header bodySize properties => .header bodySize (properties.arrived fresh)
  | payload => payload

def Frame.arrived (f : Frame) : Frame := ⟨f.channel, f.payload.arrived fresh⟩

/-! ## One frame -/

theorem numberAt_bigEndian {width n : Nat} (hn : n < 256 ^ width) (front tail : Bytes) :
    numberAt width front.length (front ++ (bigEndian width n ++ tail)) = n := by
  rw [numberAt, List.drop_left, List.take_left' (bigEndian_length width n), bigEndianValue_of_lt hn]

section

variable (frameType : UInt8) (channel : UInt16) (payload : Bytes)

theorem wholeFrame_type : UInt8.ofNat (numberAt 1 0 (wholeFrame frameType channel payload)) = frameType := by
  have hbyte : bigEndian 1 frameType.toNat = [frameType] := by
    simp [bigEndian]
  have hnumber := numberAt_bigEndian (show frameType.toNat < 256 ^ 1 from frameType.toNat_lt) []
    (bigEndian 2 channel.toNat ++ bigEndian 4 payload.length ++ (payload ++ [amqpFrameEnd]))
  rw [hbyte, List.length_nil] at hnumber
  have heq : wholeFrame frameType channel payload = [] ++ ([frameType] ++
      (bigEndian 2 channel.toNat ++ bigEndian 4 payload.length ++ (payload ++ [amqpFrameEnd]))) := by
    simp [wholeFrame, frameHeader]
  rw [heq, hnumber, UInt8.ofNat_toNat]

theorem wholeFrame_channel : UInt16.ofNat (numberAt 2 1 (wholeFrame frameType channel payload)) = channel := by
  have hnumber := numberAt_bigEndian (show channel.toNat < 256 ^ 2 from channel.toNat_lt) [frameType]
    (bigEndian 4 payload.length ++ (payload ++ [amqpFrameEnd]))
  have heq : wholeFrame frameType channel payload = [frameType] ++ (bigEndian 2 channel.toNat ++
      (bigEndian 4 payload.length ++ (payload ++ [amqpFrameEnd]))) := by
    simp [wholeFrame, frameHeader]
  rw [heq]
  rw [List.length_singleton] at hnumber
  rw [hnumber, UInt16.ofNat_toNat]

theorem wholeFrame_size (h : payload.length < 2 ^ 32) (tail : Bytes) :
    frameSize (wholeFrame frameType channel payload ++ tail) = payload.length + 8 := by
  have hnumber := numberAt_bigEndian (show payload.length < 256 ^ 4 from h)
    ([frameType] ++ bigEndian 2 channel.toNat) (payload ++ [amqpFrameEnd] ++ tail)
  have heq : wholeFrame frameType channel payload ++ tail = [frameType] ++ bigEndian 2 channel.toNat ++
      (bigEndian 4 payload.length ++ (payload ++ [amqpFrameEnd] ++ tail)) := by
    simp [wholeFrame, frameHeader]
  rw [List.length_append, bigEndian_length] at hnumber
  rw [frameSize, heq]
  exact congrArg (fun n => n + 8) hnumber

theorem wholeFrame_end :
    (wholeFrame frameType channel payload)[payload.length + 8 - 1]? = some amqpFrameEnd := by
  have hfront : (frameHeader frameType channel payload.length ++ payload).length = payload.length + 8 - 1 := by
    rw [List.length_append, frameHeader_length, headerSize]
    omega
  rw [wholeFrame, ← List.append_assoc, ← hfront, List.getElem?_append_right (Nat.le_refl _), Nat.sub_self]
  rfl

theorem decodePayload_wholeFrame {α : Type} {r : AmqpDecoder α} {a : α} (first rest : Bytes)
    {next : Nat} (hr : r rest 0 = .ok (a, next)) :
    decodePayload (wholeFrame frameType channel (first ++ rest)) ((first ++ rest).length + 8) first.length r =
      .ok a := by
  have hlength := @List.length_append _ first rest
  have hfront : headerSize + first.length =
      (frameHeader frameType channel (first ++ rest).length ++ first).length := by
    rw [List.length_append, frameHeader_length]
  have hdrop : (wholeFrame frameType channel (first ++ rest)).drop (headerSize + first.length) =
      rest ++ [amqpFrameEnd] := by
    rw [wholeFrame, List.append_assoc first, ← List.append_assoc _ first, hfront, List.drop_left]
  have hcount : (first ++ rest).length + 8 - headerSize - first.length - footerSize = rest.length := by
    unfold headerSize footerSize
    omega
  unfold decodePayload
  rw [if_neg (by unfold headerSize footerSize; omega), hdrop, hcount, List.take_left]
  simp only [hr]

end

theorem numberAt_wholeFrame {width n : Nat} (hn : n < 256 ^ width) (frameType : UInt8) (channel : UInt16)
    (first rest : Bytes) :
    numberAt width (headerSize + first.length)
      (wholeFrame frameType channel (first ++ (bigEndian width n ++ rest))) = n := by
  have hnumber := numberAt_bigEndian hn
    (frameHeader frameType channel (first ++ (bigEndian width n ++ rest)).length ++ first)
    (rest ++ [amqpFrameEnd])
  rw [List.length_append, frameHeader_length] at hnumber
  rw [wholeFrame, List.append_assoc first, ← List.append_assoc _ first, List.append_assoc (bigEndian _ _)]
  exact hnumber

theorem decodeMethodPayload_octets {m : MethodCall} (h : m.Sized) (channel : UInt16) :
    decodeMethodPayload (wholeFrame amqpFrameMethod channel (FramePayload.method m).octets)
      ((FramePayload.method m).octets.length + 8) = .ok (.method m) := by
  have hid := numberAt_wholeFrame (show m.method.id.toNat < 256 ^ 4 from m.method.id.toNat_lt)
    amqpFrameMethod channel [] m.octets
  rw [List.length_nil, Nat.add_zero, List.nil_append] at hid
  have hdecoded := decodePayload_wholeFrame amqpFrameMethod channel (bigEndian 4 m.method.id.toNat) m.octets
    (decodes_amqpDecodeMethod h).whole
  rw [bigEndian_length] at hdecoded
  unfold decodeMethodPayload
  rw [FramePayload.octets, hid, UInt32.ofNat_toNat]
  simp only [hdecoded, Bind.bind, Except.bind]
  rfl

theorem decodeHeaderPayload_octets (bodySize : UInt64) {p : Properties} (h : p.Sized) (channel : UInt16) :
    decodeHeaderPayload fresh (wholeFrame amqpFrameHeader channel (FramePayload.header bodySize p).octets)
      ((FramePayload.header bodySize p).octets.length + 8) = .ok (.header bodySize (p.arrived fresh)) := by
  have hclass := numberAt_wholeFrame (show p.cls.id.toNat < 256 ^ 2 from p.cls.id.toNat_lt) amqpFrameHeader channel []
    (bigEndian 2 0 ++ bigEndian 8 bodySize.toNat ++ p.octets)
  have hsize := numberAt_wholeFrame (show bodySize.toNat < 256 ^ 8 from bodySize.toNat_lt) amqpFrameHeader channel
    (bigEndian 2 p.cls.id.toNat ++ bigEndian 2 0) p.octets
  have hdecoded := decodePayload_wholeFrame amqpFrameHeader channel
    (bigEndian 2 p.cls.id.toNat ++ (bigEndian 2 0 ++ bigEndian 8 bodySize.toNat)) p.octets
    (decodes_amqpDecodeProperties h fresh).whole
  simp only [List.length_append, bigEndian_length, List.append_assoc, List.nil_append, List.length_nil,
    Nat.add_zero, Nat.reduceAdd] at hclass hsize hdecoded
  unfold decodeHeaderPayload
  simp only [FramePayload.octets, List.append_assoc, List.length_append, bigEndian_length, hclass, hsize,
    UInt16.ofNat_toNat, UInt64.ofNat_toNat, hdecoded, Bind.bind, Except.bind]
  rfl

theorem decodeFrame_octets {f : Frame} (h : f.payload.Sized) :
    decodeFrame fresh f.octets (f.payload.octets.length + 8) = .ok (some (f.arrived fresh)) := by
  unfold decodeFrame Frame.octets
  rw [wholeFrame_end, wholeFrame_type, wholeFrame_channel, if_neg (not_not_intro rfl)]
  unfold Frame.arrived
  cases hpayload : f.payload with
  | method m =>
      rw [hpayload] at h
      have hmethod := decodeMethodPayload_octets h.2 f.channel
      simp only [FramePayload.frameType, if_true, hmethod]
      rfl
  | header bodySize properties =>
      rw [hpayload] at h
      have hheader := decodeHeaderPayload_octets fresh bodySize h.2 f.channel
      have hother : amqpFrameHeader ≠ amqpFrameMethod := by decide
      simp only [FramePayload.frameType, if_true, if_neg hother, hheader]
      rfl
  | body fragment =>
      have hbody := decodePayload_wholeFrame (r := fun encoded _ => .ok (encoded, encoded.length))
        amqpFrameBody f.channel [] fragment rfl
      rw [List.length_nil, List.nil_append] at hbody
      have hmethod : amqpFrameBody ≠ amqpFrameMethod := by decide
      have hheader : amqpFrameBody ≠ amqpFrameHeader := by decide
      simp only [FramePayload.frameType, FramePayload.octets, if_neg hmethod, if_neg hheader, if_true,
        decodeBodyPayload, hbody]
      rfl
  | heartbeat => rfl
  | protocolHeader a b c d =>
      rw [hpayload] at h
      exact absurd h.2 not_false

/-! ## A stream of frames -/

theorem parseStream_wholeFrame {frameType : UInt8} {channel : UInt16} {payload : Bytes}
    (hbound : payload.length < 2 ^ 32 - 8) {frame : Frame}
    (hframe : decodeFrame fresh (wholeFrame frameType channel payload) (payload.length + 8) = .ok (some frame))
    (tail : Bytes) :
    parseStream fresh (wholeFrame frameType channel payload ++ tail) =
      (frame :: (parseStream fresh tail).1, (parseStream fresh tail).2) := by
  have hsize : frameSize (wholeFrame frameType channel payload ++ tail) = payload.length + 8 :=
    wholeFrame_size _ _ _ (Nat.lt_trans hbound (by decide)) tail
  have hlength := wholeFrame_length frameType channel payload
  have hall := @List.length_append _ (wholeFrame frameType channel payload) tail
  have htake : (wholeFrame frameType channel payload ++ tail).take (payload.length + 8) =
      wholeFrame frameType channel payload := by
    rw [← hlength, List.take_left]
  have hwhole : decodeFrame fresh ((wholeFrame frameType channel payload ++ tail).take
      (frameSize (wholeFrame frameType channel payload ++ tail)))
        (frameSize (wholeFrame frameType channel payload ++ tail)) = .ok (some frame) := by
    rw [hsize, htake]
    exact hframe
  have hparsed := parseStream_frame fresh (by unfold headerSize; omega) (by omega) (by omega) hwhole
  rw [hparsed, hsize, ← hlength, List.drop_left]
  rfl

theorem parseStream_octets {f : Frame} (h : f.payload.Sized) (tail : Bytes) :
    parseStream fresh (f.octets ++ tail) =
      (f.arrived fresh :: (parseStream fresh tail).1, (parseStream fresh tail).2) :=
  parseStream_wholeFrame fresh h.1 (decodeFrame_octets fresh h) tail

theorem parseStream_frames {frames : List Frame} (h : ∀ f ∈ frames, f.payload.Sized) (tail : Bytes) :
    parseStream fresh (frames.flatMap Frame.octets ++ tail) =
      (frames.map (Frame.arrived fresh) ++ (parseStream fresh tail).1, (parseStream fresh tail).2) := by
  induction frames with
  | nil => rfl
  | cons f rest ih =>
      have hrest := ih fun g hg => h g (List.mem_cons_of_mem f hg)
      rw [List.flatMap_cons, List.append_assoc, parseStream_octets fresh (h f List.mem_cons_self), hrest]
      rfl

theorem parseStream_nil : parseStream fresh [] = ([], .left []) :=
  parseStream_short fresh (.inl (by decide)) fun h => absurd h (by decide)

/-- Frames in chunks of any size, on a connection that is idle: all of them are handed out, in
their order, and the connection is idle again. -/
theorem receiveChunks_frames {frames : List Frame} (h : ∀ f ∈ frames, f.payload.Sized) {s : Inbound}
    (hs : Represents s []) {chunks : List Bytes} (hchunks : chunks.flatten = frames.flatMap Frame.octets) :
    ∃ s', receiveChunks fresh s chunks = (frames.map (Frame.arrived fresh), .ok s') ∧ Represents s' [] := by
  have hagrees := receiveChunks_agrees fresh hs chunks
  have hparse := parseStream_frames fresh h []
  rw [List.append_nil, parseStream_nil, List.append_nil] at hparse
  rw [List.nil_append, hchunks, hparse] at hagrees
  obtain ⟨hframes, s', hresult, hidle⟩ := hagrees
  exact ⟨s', Prod.ext hframes hresult, hidle⟩

end Neb2Amqp
