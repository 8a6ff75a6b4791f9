import Neb2Amqp.Librabbitmq.Input

/-!
# The stream of a peer

What the octets of a peer mean does not depend on how they are cut into chunks. `parseStream`
reads a whole stream at once; the connection, fed with any chunks, hands out the same frames
and fails in the same way. `Represents` relates a connection to the octets of the frame that
it has not finished.
-/

namespace Neb2Amqp

open CLib

/-- The size of the frame that starts the stream, header and end included. -/
def frameSize (stream : Bytes) : Nat := numberAt 4 3 stream + 8

/-- How a stream ends: in the middle of a frame or between two, with a fault, or at a frame whose
size does not fit into 32 bits. -/
inductive StreamEnd
  | left (pending : Bytes)
  | fault (fault : WireFault)
  | oversized

variable (fresh : ∀ c : PropertyClass, Members c.layout)

def parseStream (stream : Bytes) : List Frame × StreamEnd :=
  if _h : stream.length < headerSize then ([], .left stream)
  else if 2 ^ 32 ≤ frameSize stream then ([], .oversized)
  else if stream.length < frameSize stream then ([], .left stream)
  else match decodeFrame fresh (stream.take (frameSize stream)) (frameSize stream) with
    | .error fault => ([], .fault fault)
    | .ok frame =>
        let rest := parseStream (stream.drop (frameSize stream))
        (frame.toList ++ rest.1, rest.2)
termination_by stream.length
decreasing_by
  rw [List.length_drop]
  unfold headerSize at _h
  unfold frameSize
  omega

/-- A connection in the middle of a frame whose size it knows. -/
def Inbound.inBody (headerBuffer block pending : Bytes) : Inbound :=
  ⟨.body, headerBuffer, some block, pending.length, frameSize pending⟩

/-- The connection has seen `pending` of the frame it is at. -/
inductive Represents : Inbound → Bytes → Prop
  | idle (headerBuffer : Bytes) (hbuffer : headerBuffer.length = 8) :
      Represents ⟨.idle, headerBuffer, none, 0, headerSize⟩ []
  | header (headerBuffer pending : Bytes) (hbuffer : headerBuffer.length = 8) (hpos : 0 < pending.length)
      (hshort : pending.length < headerSize) (hpending : headerBuffer.take pending.length = pending) :
      Represents ⟨.header, headerBuffer, none, pending.length, headerSize⟩ pending
  | body (headerBuffer block pending : Bytes) (hbuffer : headerBuffer.length = 8)
      (hheader : headerSize ≤ pending.length) (hshort : pending.length < frameSize pending)
      (hsize : frameSize pending < 2 ^ 32) (hblock : frameSize pending ≤ block.length)
      (hpending : block.take pending.length = pending) :
      Represents (.inBody headerBuffer block pending) pending

/-! ## What a number or a frame depends on -/

theorem numberAt_take {width offset n : Nat} (h : offset + width ≤ n) (b : Bytes) :
    numberAt width offset (b.take n) = numberAt width offset b := by
  rw [numberAt, numberAt, List.drop_take, List.take_take, Nat.min_eq_left (by omega)]

theorem numberAt_append {width offset : Nat} {a : Bytes} (h : offset + width ≤ a.length) (b : Bytes) :
    numberAt width offset (a ++ b) = numberAt width offset a := by
  rw [← numberAt_take (Nat.le_refl (offset + width)) (a ++ b),
    ← numberAt_take (Nat.le_refl (offset + width)) a, List.take_append_of_le_length h]

theorem frameSize_append {a : Bytes} (h : headerSize ≤ a.length) (b : Bytes) :
    frameSize (a ++ b) = frameSize a := by
  rw [frameSize, frameSize, numberAt_append (by unfold headerSize at h; omega)]

theorem decodePayload_take {α : Type} (rawFrame : Bytes) (targetSize fixed : Nat) (r : AmqpDecoder α) :
    decodePayload (rawFrame.take targetSize) targetSize fixed r =
      decodePayload rawFrame targetSize fixed r := by
  unfold decodePayload
  by_cases hshort : targetSize < headerSize + fixed + footerSize
  · rw [if_pos hshort, if_pos hshort]
  · rw [if_neg hshort, if_neg hshort, List.drop_take, List.take_take, Nat.min_eq_left (by omega)]

theorem decodePayload_short {α : Type} {rawFrame : Bytes} {targetSize fixed : Nat} {r : AmqpDecoder α}
    (h : targetSize < headerSize + fixed + footerSize) :
    decodePayload rawFrame targetSize fixed r = .error .outOfBounds := if_pos h

theorem decodeMethodPayload_take (rawFrame : Bytes) (targetSize : Nat) :
    decodeMethodPayload (rawFrame.take targetSize) targetSize = decodeMethodPayload rawFrame targetSize := by
  unfold decodeMethodPayload
  by_cases hshort : targetSize < headerSize + 4 + footerSize
  · simp only [decodePayload_short hshort]
  · unfold footerSize at hshort
    rw [numberAt_take (by omega)]
    simp only [decodePayload_take]

theorem decodeHeaderPayload_take (rawFrame : Bytes) (targetSize : Nat) :
    decodeHeaderPayload fresh (rawFrame.take targetSize) targetSize =
      decodeHeaderPayload fresh rawFrame targetSize := by
  unfold decodeHeaderPayload
  by_cases hshort : targetSize < headerSize + 12 + footerSize
  · simp only [decodePayload_short hshort]
    rfl
  · unfold footerSize at hshort
    rw [numberAt_take (by omega), numberAt_take (by omega)]
    simp only [decodePayload_take]

theorem decodeFrame_take (rawFrame : Bytes) {targetSize : Nat} (h : 8 ≤ targetSize) :
    decodeFrame fresh (rawFrame.take targetSize) targetSize = decodeFrame fresh rawFrame targetSize := by
  have hend : (rawFrame.take targetSize)[targetSize - 1]? = rawFrame[targetSize - 1]? :=
    List.getElem?_take_of_lt (by omega)
  unfold decodeFrame
  rw [hend, numberAt_take (by omega), numberAt_take (by omega), decodeMethodPayload_take,
    decodeHeaderPayload_take, decodeBodyPayload, decodePayload_take, ← decodeBodyPayload]

/-! ## One call -/

theorem consumeData_ok (s : Inbound) (data : Bytes) (htarget : s.inboundOffset ≤ s.targetSize)
    (hbuffer : s.targetSize ≤ s.inboundBuffer.length) :
    consumeData s data =
      .ok (min (s.targetSize - s.inboundOffset) data.length,
        { s.setBuffer (putAt s.inboundBuffer s.inboundOffset
            (data.take (min (s.targetSize - s.inboundOffset) data.length))) with
          inboundOffset := s.inboundOffset + min (s.targetSize - s.inboundOffset) data.length }) := by
  have hroom : s.room = s.targetSize - s.inboundOffset := if_pos htarget
  unfold consumeData
  rw [hroom]
  exact if_neg (by omega)

theorem putAt_pending (data : Bytes) (n : Nat) {buffer pending : Bytes} (hn : n ≤ data.length)
    (hroom : pending.length + n ≤ buffer.length) (hpending : buffer.take pending.length = pending) :
    (putAt buffer pending.length (data.take n)).take (pending.length + n) = pending ++ data.take n := by
  have hlength : (data.take n).length = n := by
    rw [List.length_take]
    omega
  have htake := @putAt_take buffer (data.take n) pending.length (by omega)
  rwa [hlength, hpending] at htake

/-- What is left to do once the size of the frame is known: take what there is of it and, if that
is all of it, hand it out. -/
def takeBody (bytesConsumed : Nat) (s : Inbound) (data : Bytes) :
    Except WireFault (Nat × Option Frame × Inbound) := do
  let (more, s) ← consumeData s data
  if s.inboundOffset < s.targetSize then return (bytesConsumed + more, none, s)
  else finishFrame fresh (bytesConsumed + more) s

section

variable {headerBuffer block pending data : Bytes}

theorem takeBody_short (hbuffer : headerBuffer.length = 8) (hheader : headerSize ≤ pending.length)
    (hsize : frameSize pending < 2 ^ 32) (hblock : frameSize pending ≤ block.length)
    (hpending : block.take pending.length = pending) (bytesConsumed : Nat)
    (hdata : (pending ++ data).length < frameSize pending) :
    ∃ s, takeBody fresh bytesConsumed (.inBody headerBuffer block pending) data =
        .ok (bytesConsumed + data.length, none, s) ∧ Represents s (pending ++ data) := by
  have hframe : frameSize (pending ++ data) = frameSize pending := frameSize_append hheader data
  have hlength := hdata
  rw [List.length_append] at hlength
  have hshort : pending.length ≤ frameSize pending := by omega
  have hall : min (frameSize pending - pending.length) data.length = data.length := by omega
  have hconsume := consumeData_ok (.inBody headerBuffer block pending) data hshort hblock
  simp only [Inbound.inBody, hall, List.take_length, Inbound.setBuffer] at hconsume
  have hwritten : (putAt block pending.length data).length = block.length :=
    putAt_length (by omega)
  have htake := putAt_pending data data.length (Nat.le_refl data.length) (by omega) hpending
  rw [List.take_length, ← List.length_append] at htake
  refine ⟨.inBody headerBuffer (putAt block pending.length data) (pending ++ data), ?_, ?_⟩
  · unfold takeBody Inbound.inBody
    rw [hconsume, List.length_append, hframe]
    exact if_pos hlength
  · apply Represents.body _ _ _ hbuffer
    · rw [List.length_append]
      omega
    · rwa [hframe]
    · rwa [hframe]
    · rwa [hframe, hwritten]
    · exact htake

variable (headerBuffer) in
theorem takeBody_whole (hshort : pending.length ≤ frameSize pending)
    (hblock : frameSize pending ≤ block.length) (hpending : block.take pending.length = pending)
    (bytesConsumed : Nat) (hdata : frameSize pending ≤ (pending ++ data).length) :
    takeBody fresh bytesConsumed (.inBody headerBuffer block pending) data =
      (decodeFrame fresh ((pending ++ data).take (frameSize pending)) (frameSize pending)).map
        fun frame => (bytesConsumed + (frameSize pending - pending.length), frame,
          ⟨.idle, headerBuffer, none, 0, headerSize⟩) := by
  rw [List.length_append] at hdata
  have hall : min (frameSize pending - pending.length) data.length = frameSize pending - pending.length := by
    omega
  have hconsume := consumeData_ok (.inBody headerBuffer block pending) data hshort hblock
  simp only [Inbound.inBody, hall, Inbound.setBuffer] at hconsume
  have htake := putAt_pending data (frameSize pending - pending.length) (by omega) (by omega)
    hpending
  have hend : pending.length + (frameSize pending - pending.length) = frameSize pending := by omega
  rw [hend] at htake
  have hwhole : (pending ++ data).take (frameSize pending) =
      pending ++ data.take (frameSize pending - pending.length) := by
    rw [List.take_append, List.take_of_length_le (by omega)]
  rw [hwhole, ← htake, decodeFrame_take fresh _ (by unfold frameSize; omega)]
  unfold takeBody Inbound.inBody
  rw [hconsume]
  simp only [Bind.bind, Except.bind, hend, Nat.lt_irrefl, if_false]
  unfold finishFrame
  cases hdecoded : decodeFrame fresh (putAt block pending.length
      (data.take (frameSize pending - pending.length))) (frameSize pending) with
  | error fault => simp [Inbound.inboundBuffer, hdecoded, Except.map, Bind.bind, Except.bind]
  | ok frame =>
      simp [Inbound.inboundBuffer, Inbound.returnToIdle, hdecoded, Except.map, Bind.bind, Except.bind]
      rfl

end

theorem amqpHandleInput_inBody {headerBuffer block pending data : Bytes} (hdata : data ≠ []) :
    amqpHandleInput fresh (.inBody headerBuffer block pending) data =
      takeBody fresh 0 (.inBody headerBuffer block pending) data := by
  unfold amqpHandleInput takeBody
  rw [if_neg hdata]
  simp only [Inbound.inBody, reduceCtorEq, if_false, Nat.zero_add]
  unfold consumeData
  simp only [Inbound.setBuffer]
  split
  · rfl
  · rfl

/-- The block of a new frame starts with its header. Of a block that is fresh, the octets behind
the header are 0. -/
theorem startFrame_eq (bytesConsumed : Nat) (rest : Bytes) (state : ConnectionState) (targetSize : Nat)
    {headerBuffer header : Bytes} {k : Nat} (hheader : headerBuffer.take headerSize = header)
    (hlength : header.length = headerSize)
    (hsize : frameSize header < 2 ^ 32) (hk : k ≤ 1) :
    ∃ block, frameSize header ≤ block.length ∧
      block.take (header ++ List.replicate k 0).length = header ++ List.replicate k 0 ∧
      startFrame fresh bytesConsumed rest ⟨state, headerBuffer, none, headerSize + k, targetSize⟩ =
        takeBody fresh bytesConsumed (.inBody headerBuffer block (header ++ List.replicate k 0)) rest := by
  have hnumber : numberAt 4 3 headerBuffer = numberAt 4 3 header := by
    rw [← hheader, numberAt_take (n := headerSize) (Nat.le_refl 7)]
  have htarget : (UInt32.ofNat (numberAt 4 3 headerBuffer) + 8).toNat = frameSize header := by
    unfold frameSize at hsize ⊢
    rw [hnumber, UInt32.toNat_add, UInt32.toNat_ofNat_of_lt' (show numberAt 4 3 header < 2 ^ 32 by omega)]
    exact Nat.mod_eq_of_lt hsize
  have hpos : frameSize header ≠ 0 := by
    unfold frameSize
    omega
  have hframe : frameSize (header ++ List.replicate k 0) = frameSize header :=
    frameSize_append (Nat.le_of_eq hlength.symm) _
  refine ⟨putAt (List.replicate ((frameSize header + 7) / 8 * 8) 0) 0 header, ?_, ?_, ?_⟩
  · rw [putAt_length (by rw [List.length_replicate, hlength]; unfold headerSize frameSize; omega),
      List.length_replicate]
    omega
  · rw [putAt, List.take_zero, List.nil_append, List.length_append, List.take_length_add_append]
    congr 1
    rw [List.length_replicate, List.drop_replicate, List.take_replicate, Nat.min_eq_left]
    rw [hlength]
    unfold headerSize frameSize
    omega
  · unfold startFrame takeBody Inbound.inBody
    simp only [Inbound.inboundBuffer, Option.getD_none, htarget, hheader, if_neg hpos, hframe,
      List.length_append, List.length_replicate, hlength]

/-! ### Before the size is known -/

theorem amqpHandleInput_idle {headerBuffer data : Bytes} {offset targetSize : Nat} (hdata : data ≠ []) :
    amqpHandleInput fresh ⟨.idle, headerBuffer, none, offset, targetSize⟩ data =
      amqpHandleInput fresh ⟨.header, headerBuffer, none, offset, targetSize⟩ data := by
  unfold amqpHandleInput
  rw [if_neg hdata, if_neg hdata]
  simp

section

variable {state : ConnectionState} {headerBuffer pending data : Bytes} {targetSize : Nat}
  (hstate : state ≠ .idle) (hbuffer : targetSize ≤ headerBuffer.length)
  (hpending : headerBuffer.take pending.length = pending) (hdata : data ≠ [])

include hstate hbuffer hpending hdata

theorem amqpHandleInput_short (hshort : (pending ++ data).length < targetSize) :
    ∃ headerBuffer', headerBuffer'.length = headerBuffer.length ∧
      headerBuffer'.take (pending ++ data).length = pending ++ data ∧
      amqpHandleInput fresh ⟨state, headerBuffer, none, pending.length, targetSize⟩ data =
        .ok (data.length, none, ⟨state, headerBuffer', none, (pending ++ data).length, targetSize⟩) := by
  have hlength := hshort
  rw [List.length_append] at hlength
  have hall : min (targetSize - pending.length) data.length = data.length := by omega
  have htake := putAt_pending data data.length (Nat.le_refl data.length) (by omega) hpending
  rw [List.take_length, ← List.length_append] at htake
  refine ⟨putAt headerBuffer pending.length data, putAt_length (by omega), htake, ?_⟩
  have hconsume := consumeData_ok ⟨state, headerBuffer, none, pending.length, targetSize⟩ data
    (show pending.length ≤ targetSize by omega) hbuffer
  simp only [hall, List.take_length, Inbound.setBuffer, Inbound.inboundBuffer, Option.getD_none] at hconsume
  unfold amqpHandleInput
  rw [if_neg hdata]
  simp only [hstate, if_false, hconsume, Bind.bind, Except.bind, hlength, if_true, List.length_append]
  rfl

theorem amqpHandleInput_filled (hlong : targetSize ≤ (pending ++ data).length)
    (hshort : pending.length ≤ targetSize) :
    ∃ headerBuffer', headerBuffer'.length = headerBuffer.length ∧
      headerBuffer'.take targetSize = (pending ++ data).take targetSize ∧
      amqpHandleInput fresh ⟨state, headerBuffer, none, pending.length, targetSize⟩ data =
        match state with
        | .initial =>
            if headerBuffer'.take 4 = (CString.lit "AMQP").bytes then
              .ok (targetSize - pending.length, some (protocolHeaderFrame headerBuffer'),
                ⟨.idle, headerBuffer', none, 0, headerSize⟩)
            else startFrame fresh (targetSize - pending.length) (data.drop (targetSize - pending.length))
              ⟨state, headerBuffer', none, targetSize, targetSize⟩
        | .header => startFrame fresh (targetSize - pending.length)
            (data.drop (targetSize - pending.length)) ⟨state, headerBuffer', none, targetSize, targetSize⟩
        | .body => finishFrame fresh (targetSize - pending.length)
            ⟨state, headerBuffer', none, targetSize, targetSize⟩
        | .idle => .error .aborted := by
  have hlength := hlong
  rw [List.length_append] at hlength
  have hall : min (targetSize - pending.length) data.length = targetSize - pending.length := by omega
  have hend : pending.length + (targetSize - pending.length) = targetSize := by omega
  have htake := putAt_pending data (targetSize - pending.length) (by omega) (by omega)
    hpending
  rw [hend] at htake
  have hwhole : (pending ++ data).take targetSize = pending ++ data.take (targetSize - pending.length) := by
    rw [List.take_append, List.take_of_length_le (by omega)]
  have hwritten : (data.take (targetSize - pending.length)).length = targetSize - pending.length := by
    rw [List.length_take]
    omega
  refine ⟨putAt headerBuffer pending.length (data.take (targetSize - pending.length)),
    putAt_length (by omega), by rw [htake, hwhole], ?_⟩
  have hconsume := consumeData_ok ⟨state, headerBuffer, none, pending.length, targetSize⟩ data
    hshort hbuffer
  simp only [hall, hend, Inbound.setBuffer, Inbound.inboundBuffer, Option.getD_none] at hconsume
  unfold amqpHandleInput
  rw [if_neg hdata]
  simp only [hstate, if_false, hconsume, Bind.bind, Except.bind, Nat.lt_irrefl]
  cases state <;> rfl

end

/-! ### Any call -/

/-- What is known of a call that met `total` octets of a frame, `seen` of them before it. -/
def CallMeets (result : Except WireFault (Nat × Option Frame × Inbound)) (total : Bytes)
    (seen all : Nat) : Prop :=
  if total.length < headerSize ∨ total.length < frameSize total then
    ∃ s, result = .ok (all, none, s) ∧ Represents s total
  else
    ∃ s, Represents s [] ∧ result =
      (decodeFrame fresh (total.take (frameSize total)) (frameSize total)).map
        fun frame => (frameSize total - seen, frame, s)

theorem takeBody_meets (data : Bytes) {headerBuffer block pending : Bytes} (hbuffer : headerBuffer.length = 8)
    (hheader : headerSize ≤ pending.length) (hshort : pending.length ≤ frameSize pending)
    (hsize : frameSize pending < 2 ^ 32) (hblock : frameSize pending ≤ block.length)
    (hpending : block.take pending.length = pending) {bytesConsumed seen : Nat}
    (hseen : bytesConsumed + seen = pending.length) :
    CallMeets fresh (takeBody fresh bytesConsumed (.inBody headerBuffer block pending) data)
      (pending ++ data) seen (bytesConsumed + data.length) := by
  have hframe : frameSize (pending ++ data) = frameSize pending := frameSize_append hheader data
  have hlong : ¬ (pending ++ data).length < headerSize := by
    rw [List.length_append]
    omega
  unfold CallMeets
  rw [hframe]
  by_cases hdata : (pending ++ data).length < frameSize pending
  · rw [if_pos (.inr hdata)]
    exact takeBody_short fresh hbuffer hheader hsize hblock hpending bytesConsumed hdata
  · rw [if_neg (by simp only [hlong, hdata, or_self, not_false_eq_true])]
    have hwhole := takeBody_whole fresh headerBuffer hshort hblock hpending
      bytesConsumed (Nat.le_of_not_lt hdata)
    have htaken : bytesConsumed + (frameSize pending - pending.length) = frameSize pending - seen := by
      omega
    rw [htaken] at hwhole
    exact ⟨_, Represents.idle headerBuffer hbuffer, hwhole⟩

theorem startFrame_meets (rest : Bytes) (state : ConnectionState) (targetSize : Nat)
    {headerBuffer header : Bytes} {k bytesConsumed seen : Nat} (hbuffer : headerBuffer.length = 8)
    (hheader : headerBuffer.take headerSize = header) (hlength : header.length = headerSize)
    (hsize : frameSize header < 2 ^ 32) (hk : k ≤ 1) (hseen : bytesConsumed + seen = headerSize + k) :
    CallMeets fresh
      (startFrame fresh bytesConsumed rest ⟨state, headerBuffer, none, headerSize + k, targetSize⟩)
      (header ++ List.replicate k 0 ++ rest) seen (bytesConsumed + rest.length) := by
  obtain ⟨block, hblock, htake, heq⟩ :=
    startFrame_eq fresh bytesConsumed rest state targetSize hheader hlength hsize hk
  have hframe : frameSize (header ++ List.replicate k 0) = frameSize header :=
    frameSize_append (Nat.le_of_eq hlength.symm) _
  have htotal : (header ++ List.replicate k 0).length = headerSize + k := by
    rw [List.length_append, List.length_replicate, hlength]
  rw [heq]
  apply takeBody_meets fresh rest hbuffer
  · omega
  · rw [htotal, hframe]
    unfold headerSize frameSize
    omega
  · rwa [hframe]
  · rwa [hframe]
  · exact htake
  · rw [htotal, hseen]

theorem amqpHandleInput_header {headerBuffer pending data : Bytes} (hbuffer : headerBuffer.length = 8)
    (hshort : pending.length < headerSize) (hpending : headerBuffer.take pending.length = pending)
    (hdata : data ≠ [])
    (hsize : headerSize ≤ (pending ++ data).length → frameSize (pending ++ data) < 2 ^ 32) :
    CallMeets fresh
      (amqpHandleInput fresh ⟨.header, headerBuffer, none, pending.length, headerSize⟩ data)
      (pending ++ data) pending.length data.length := by
  have hlengths := @List.length_append _ pending data
  have hbound : headerSize ≤ headerBuffer.length := by
    unfold headerSize
    omega
  by_cases hfilled : (pending ++ data).length < headerSize
  · obtain ⟨headerBuffer', hlength', htake', heq⟩ :=
      amqpHandleInput_short fresh (show ConnectionState.header ≠ .idle by decide) hbound hpending hdata hfilled
    have hpos := List.length_pos_iff.mpr hdata
    unfold CallMeets
    rw [if_pos (.inl hfilled)]
    exact ⟨_, heq, .header headerBuffer' _ (by omega) (by omega) hfilled htake'⟩
  · have hlong : headerSize ≤ (pending ++ data).length := Nat.le_of_not_lt hfilled
    obtain ⟨headerBuffer', hlength', htake', heq⟩ :=
      amqpHandleInput_filled fresh (show ConnectionState.header ≠ .idle by decide) hbound hpending
        hdata hlong (by omega)
    have hheaderLength : ((pending ++ data).take headerSize).length = headerSize := by
      rw [List.length_take]
      omega
    have hsplit : (pending ++ data).take headerSize ++ List.replicate 0 0 ++
        data.drop (headerSize - pending.length) = pending ++ data := by
      rw [List.replicate_zero, List.append_nil, List.take_append, List.take_of_length_le (by omega),
        List.append_assoc, List.take_append_drop]
    have hframe : frameSize ((pending ++ data).take headerSize) = frameSize (pending ++ data) := by
      unfold frameSize
      rw [numberAt_take (n := headerSize) (Nat.le_refl 7)]
    have hmeets := startFrame_meets fresh (data.drop (headerSize - pending.length)) .header headerSize
      (by omega) htake' hheaderLength (by rw [hframe]; exact hsize hlong) (Nat.zero_le 1)
      (show headerSize - pending.length + pending.length = headerSize + 0 by omega)
    have hall : headerSize - pending.length + (data.drop (headerSize - pending.length)).length =
        data.length := by
      rw [List.length_drop]
      omega
    rw [hsplit, hall] at hmeets
    rw [heq]
    exact hmeets

/-- A call on data that follows `pending`: it takes all of it, or as much as completes the frame. -/
theorem amqpHandleInput_meets {s : Inbound} {pending data : Bytes} (h : Represents s pending)
    (hdata : data ≠ [])
    (hsize : headerSize ≤ (pending ++ data).length → frameSize (pending ++ data) < 2 ^ 32) :
    CallMeets fresh (amqpHandleInput fresh s data) (pending ++ data) pending.length data.length := by
  cases h with
  | idle headerBuffer hbuffer =>
      rw [amqpHandleInput_idle fresh hdata]
      exact amqpHandleInput_header fresh hbuffer (show ([] : Bytes).length < headerSize by decide) rfl hdata hsize
  | header headerBuffer pending hbuffer hpos hshort hpending =>
      exact amqpHandleInput_header fresh hbuffer hshort hpending hdata hsize
  | body headerBuffer block pending hbuffer hheader hshort hsmall hblock hpending =>
      rw [amqpHandleInput_inBody fresh hdata]
      have hmeets := takeBody_meets fresh data hbuffer hheader (Nat.le_of_lt hshort) hsmall
        hblock hpending (Nat.zero_add pending.length)
      rwa [Nat.zero_add] at hmeets

end Neb2Amqp
