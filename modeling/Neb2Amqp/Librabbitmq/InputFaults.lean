import Neb2Amqp.Librabbitmq.Clone
import Neb2Amqp.Librabbitmq.NewConnection

/-!
# What a peer can break

The lengths in a stream are the peer's. A stream overruns the buffers if a frame in it is too
short for the fixed part of its payload, or if its size wraps around in 32 bits. Nothing else that
a peer sends leads out of a buffer: any other stream is received, or refused with a status.
-/

namespace Neb2Amqp

open CLib

variable (fresh : ∀ c : PropertyClass, Members c.layout)

/-- The octets of a payload that are read without a look at its length. -/
def fixedOctets (frameType : UInt8) : Nat :=
  if frameType = amqpFrameMethod then 4 else if frameType = amqpFrameHeader then 12 else 0

/-- The frame that starts the stream has no room for the fixed part of its payload. -/
def TooShort (stream : Bytes) : Prop :=
  frameSize stream < headerSize + fixedOctets (.ofNat (numberAt 1 0 stream)) + footerSize

/-- A stream with a length that leads out of a buffer, once the frames before it were received. -/
inductive Overruns : Bytes → Prop
  | oversized (stream : Bytes) (hheader : headerSize ≤ stream.length) (hsize : 2 ^ 32 ≤ frameSize stream) :
      Overruns stream
  | short (stream : Bytes) (hwhole : frameSize stream ≤ stream.length) (hshort : TooShort stream) :
      Overruns stream
  | later (stream : Bytes) (frame : Option Frame) (hwhole : frameSize stream ≤ stream.length)
      (hframe : decodeFrame fresh (stream.take (frameSize stream)) (frameSize stream) = .ok frame)
      (hlater : Overruns (stream.drop (frameSize stream))) : Overruns stream

/-! ## The decoders -/

/-- No decoder stops because its bound was too low. -/
def Decides {α : Type} (r : AmqpDecoder α) : Prop :=
  ∀ (encoded : Bytes) (halt : Halt AmqpStatus), r encoded 0 = .error halt → ∃ status, halt = .failed status

theorem decides_amqpDecodeMethod (id : UInt32) : Decides (amqpDecodeMethod id) := by
  intro encoded halt h
  unfold amqpDecodeMethod at h
  cases hmethod : Method.ofId id with
  | none =>
      rw [hmethod] at h
      cases h
      exact ⟨_, rfl⟩
  | some m =>
      rw [hmethod] at h
      have hends := (@ends_decodeFields m.layout encoded 0).map (takes_decodeFields m.layout)
        fun args => (⟨m, args⟩ : MethodCall)
      exact ⟨_, hends 0 (Nat.le_refl 0) (Nat.zero_le _) halt h⟩

theorem decides_amqpDecodeProperties (classId : UInt16) : Decides (amqpDecodeProperties classId fresh) := by
  intro encoded halt h
  have hdepth : 2 * (encoded.length - 0) + 2 ≤ depthFor encoded := by
    unfold depthFor
    omega
  have hflags : Decoder.Ends .badAmqpData (decodeFlags (depthFor encoded) 0 0) encoded 0 :=
    ends_decodeFlags _ _ _ hdepth
  unfold amqpDecodeProperties at h
  cases hclass : PropertyClass.ofId classId with
  | none =>
      rw [hclass] at h
      cases hfirst : decodeFlags (depthFor encoded) 0 0 encoded 0 with
      | error halt' =>
          simp only [Decoder.bind, hfirst, Bind.bind, Except.bind] at h
          cases h
          exact ⟨_, hflags 0 (Nat.le_refl 0) (Nat.zero_le _) _ hfirst⟩
      | ok pair =>
          simp only [Decoder.bind, hfirst, Bind.bind, Except.bind] at h
          cases h
          exact ⟨_, rfl⟩
  | some c =>
      rw [hclass] at h
      have hends := hflags.bind (takes_decodeFlags _ 0 0) fun flags =>
        ((ends_decodeMembers flags c.layout (fresh c)).map (takes_decodeMembers flags c.layout (fresh c))
          fun p => (⟨c, flags, p⟩ : Properties))
      exact ⟨_, hends 0 (Nat.le_refl 0) (Nat.zero_le _) halt h⟩

section

variable {rawFrame : Bytes} {targetSize : Nat} {fault : WireFault}

theorem decodePayload_fault {α : Type} {fixed : Nat} {r : AmqpDecoder α} (hr : Decides r)
    (h : decodePayload rawFrame targetSize fixed r = .error fault) :
    (∃ status, fault = .status status) ∨ targetSize < headerSize + fixed + footerSize := by
  unfold decodePayload at h
  by_cases hshort : targetSize < headerSize + fixed + footerSize
  · exact .inr hshort
  · rw [if_neg hshort] at h
    dsimp only at h
    split at h
    · cases h
    · rename_i halt hread
      obtain ⟨status, hstatus⟩ := hr _ _ hread
      cases h
      rw [hstatus]
      exact .inl ⟨status, rfl⟩

theorem decodeMethodPayload_fault (h : decodeMethodPayload rawFrame targetSize = .error fault) :
    (∃ status, fault = .status status) ∨ targetSize < headerSize + 4 + footerSize := by
  unfold decodeMethodPayload at h
  cases hpayload : decodePayload rawFrame targetSize 4
      (amqpDecodeMethod (.ofNat (numberAt 4 headerSize rawFrame))) with
  | ok m =>
      simp only [hpayload, Bind.bind, Except.bind] at h
      cases h
  | error fault' =>
      simp only [hpayload, Bind.bind, Except.bind] at h
      cases h
      exact decodePayload_fault (decides_amqpDecodeMethod _) hpayload

theorem decodeHeaderPayload_fault (h : decodeHeaderPayload fresh rawFrame targetSize = .error fault) :
    (∃ status, fault = .status status) ∨ targetSize < headerSize + 12 + footerSize := by
  unfold decodeHeaderPayload at h
  cases hpayload : decodePayload rawFrame targetSize 12
      (amqpDecodeProperties (.ofNat (numberAt 2 headerSize rawFrame)) fresh) with
  | ok m =>
      simp only [hpayload, Bind.bind, Except.bind] at h
      cases h
  | error fault' =>
      simp only [hpayload, Bind.bind, Except.bind] at h
      cases h
      exact decodePayload_fault (decides_amqpDecodeProperties fresh _) hpayload

theorem decodeBodyPayload_ok (h : 8 ≤ targetSize) :
    ∃ payload, decodeBodyPayload rawFrame targetSize = .ok payload := by
  unfold decodeBodyPayload decodePayload
  rw [if_neg (by unfold headerSize footerSize; omega)]
  exact ⟨_, rfl⟩

/-- A frame that is complete is refused with a status, or is too short. -/
theorem decodeFrame_fault (htarget : 8 ≤ targetSize)
    (h : decodeFrame fresh rawFrame targetSize = .error fault) :
    (∃ status, fault = .status status) ∨
      targetSize < headerSize + fixedOctets (.ofNat (numberAt 1 0 rawFrame)) + footerSize := by
  unfold decodeFrame at h
  split at h
  · cases h
    exact .inl ⟨_, rfl⟩
  · dsimp only at h
    unfold fixedOctets
    split at h
    · rename_i hmethod
      rw [if_pos hmethod]
      cases hpayload : decodeMethodPayload rawFrame targetSize with
      | ok payload =>
          rw [hpayload] at h
          cases h
      | error fault' =>
          rw [hpayload] at h
          cases h
          exact decodeMethodPayload_fault hpayload
    · rename_i hmethod
      rw [if_neg hmethod]
      split at h
      · rename_i hheader
        rw [if_pos hheader]
        cases hpayload : decodeHeaderPayload fresh rawFrame targetSize with
        | ok payload =>
            rw [hpayload] at h
            cases h
        | error fault' =>
            rw [hpayload] at h
            cases h
            exact decodeHeaderPayload_fault fresh hpayload
      · split at h
        · obtain ⟨payload, hpayload⟩ := @decodeBodyPayload_ok rawFrame targetSize htarget
          rw [hpayload] at h
          cases h
        · split at h
          · cases h
          · cases h

end

/-! ## The stream -/

theorem parseStream_end (stream : Bytes) :
    (∃ pending, (parseStream fresh stream).2 = .left pending) ∨
      (∃ status, (parseStream fresh stream).2 = .fault (.status status)) ∨ Overruns fresh stream := by
  fun_induction parseStream fresh stream with
  | case1 stream hshort => exact .inl ⟨stream, rfl⟩
  | case2 stream hheader hlarge => exact .inr (.inr (.oversized stream (Nat.le_of_not_lt hheader) hlarge))
  | case3 stream hheader hlarge hshort => exact .inl ⟨stream, rfl⟩
  | case4 stream hheader hlarge hwhole fault hfault =>
      have htarget : 8 ≤ frameSize stream := by
        unfold frameSize
        omega
      rcases decodeFrame_fault fresh htarget hfault with ⟨status, hstatus⟩ | hshort
      · rw [hstatus]
        exact .inr (.inl ⟨status, rfl⟩)
      · rw [numberAt_take (by omega)] at hshort
        exact .inr (.inr (.short stream (Nat.le_of_not_lt hwhole) hshort))
  | case5 stream hheader hlarge hwhole frame hframe rest ih =>
      rcases ih with hleft | hstatus | hlater
      · exact .inl hleft
      · exact .inr (.inl hstatus)
      · exact .inr (.inr (.later stream frame (Nat.le_of_not_lt hwhole) hframe hlater))

theorem Agrees.same {result result' : List Frame × Except WireFault Inbound} {stream : Bytes}
    (h : Agrees result (parseStream fresh stream)) (h' : Agrees result' (parseStream fresh stream))
    (hsafe : ¬ Overruns fresh stream) :
    result.1 = result'.1 ∧
      ((∃ s s' pending, result.2 = .ok s ∧ result'.2 = .ok s' ∧ Represents s pending ∧
          Represents s' pending) ∨
        ∃ status, result.2 = .error (.status status) ∧ result'.2 = .error (.status status)) := by
  unfold Agrees at h h'
  rcases parseStream_end fresh stream with ⟨pending, hend⟩ | ⟨status, hend⟩ | hover
  · rw [hend] at h h'
    obtain ⟨hframes, s, hresult, hs⟩ := h
    obtain ⟨hframes', s', hresult', hs'⟩ := h'
    exact ⟨hframes.trans hframes'.symm, .inl ⟨s, s', pending, hresult, hresult', hs, hs'⟩⟩
  · rw [hend] at h h'
    exact ⟨h.1.trans h'.1.symm, .inr ⟨status, h.2, h'.2⟩⟩
  · exact absurd hover hsafe

/-- What a stream that overruns nothing comes to does not depend on the chunks it is received in. None
make receiving leave a buffer, abort or run without an end. -/
theorem receiveChunks_chunking {s : Inbound} {pending : Bytes} (h : Represents s pending)
    {chunks chunks' : List Bytes} (hsame : chunks.flatten = chunks'.flatten)
    (hsafe : ¬ Overruns fresh (pending ++ chunks.flatten)) :
    (receiveChunks fresh s chunks).1 = (receiveChunks fresh s chunks').1 ∧
      ((∃ t t' left, (receiveChunks fresh s chunks).2 = .ok t ∧ (receiveChunks fresh s chunks').2 = .ok t' ∧
          Represents t left ∧ Represents t' left) ∨
        ∃ status, (receiveChunks fresh s chunks).2 = .error (.status status) ∧
          (receiveChunks fresh s chunks').2 = .error (.status status)) := by
  have hagrees := receiveChunks_agrees fresh h chunks
  have hagrees' := receiveChunks_agrees fresh h chunks'
  rw [← hsame] at hagrees'
  exact hagrees.same fresh hagrees' hsafe

/-- A run ended as its stream does, with the rest of it kept or refused with a status. -/
inductive EndsAs : List Frame × Except WireFault Inbound → List Frame × StreamEnd → Prop
  | kept {s : Inbound} {pending : Bytes} (frames : List Frame) (h : Represents s pending) :
      EndsAs (frames, .ok s) (frames, .left pending)
  | refused (frames : List Frame) (status : AmqpStatus) :
      EndsAs (frames, .error (.status status)) (frames, .fault (.status status))

theorem Agrees.endsAs {result : List Frame × Except WireFault Inbound} {spec : List Frame × StreamEnd}
    (h : Agrees result spec) (hend : (∃ pending, spec.2 = .left pending) ∨
      ∃ status, spec.2 = .fault (.status status)) : EndsAs result spec := by
  obtain ⟨frames, last⟩ := spec
  obtain ⟨received, outcome⟩ := result
  rcases hend with ⟨pending, hpending⟩ | ⟨status, hstatus⟩
  · cases hpending
    obtain ⟨hframes, s, houtcome, hs⟩ := h
    cases hframes
    cases houtcome
    exact .kept frames hs
  · cases hstatus
    obtain ⟨hframes, houtcome⟩ := h
    cases hframes
    cases houtcome
    exact .refused frames status

/-- Whatever the peer sends first, and in whatever chunks: less than eight octets are kept, and of
more, unless they overrun, what comes is `parseStart` of them all. -/
theorem receiveChunks_new (chunks : List Bytes) :
    (chunks.flatten.length < 8 →
      ∃ s, receiveChunks fresh .new chunks = ([], .ok s) ∧ Begins s chunks.flatten) ∧
    (8 ≤ chunks.flatten.length → ¬ Overruns fresh (startStream chunks.flatten) →
      EndsAs (receiveChunks fresh .new chunks) (parseStart fresh chunks.flatten)) := by
  have hagrees := receiveChunks_new_agrees fresh chunks
  constructor
  · intro hshort
    rwa [if_pos hshort] at hagrees
  · intro hlong hsafe
    rw [if_neg (Nat.not_lt.mpr hlong)] at hagrees
    apply hagrees.endsAs
    rw [parseStart_end]
    rcases parseStream_end fresh (startStream chunks.flatten) with hleft | hstatus | hover
    · exact Or.inl hleft
    · exact Or.inr hstatus
    · exact absurd hover hsafe

theorem not_overruns_nil : ¬ Overruns fresh [] := by
  intro h
  cases h with
  | oversized _ hheader _ => exact absurd hheader (by decide)
  | short _ hwhole _ => exact absurd hwhole (by decide)
  | later _ frame hwhole _ _ => exact absurd hwhole (by decide)

theorem fixedOctets_le (p : FramePayload) : fixedOctets p.frameType ≤ p.octets.length := by
  cases p with
  | method m =>
      rw [FramePayload.octets, List.length_append, bigEndian_length]
      exact Nat.le_add_right 4 _
  | header bodySize properties =>
      simp only [FramePayload.octets, List.length_append, bigEndian_length]
      exact Nat.le_add_right 12 _
  | _ => exact Nat.zero_le _

theorem not_overruns_octets {f : Frame} (h : f.payload.Sized) {tail : Bytes} (htail : ¬ Overruns fresh tail) :
    ¬ Overruns fresh (f.octets ++ tail) := by
  have hbound := h.1
  have hsize : frameSize (f.octets ++ tail) = f.payload.octets.length + 8 :=
    wholeFrame_size _ _ _ (Nat.lt_trans hbound (by decide)) tail
  intro hover
  cases hover with
  | oversized _ _ hlarge => omega
  | short _ _ hshort =>
      have htype : UInt8.ofNat (numberAt 1 0 (f.octets ++ tail)) = f.payload.frameType := by
        rw [numberAt_append (by rw [f.octets_length]; omega)]
        exact wholeFrame_type _ _ _
      have hfixed := fixedOctets_le f.payload
      unfold TooShort headerSize footerSize at hshort
      rw [htype] at hshort
      omega
  | later _ frame _ _ hlater =>
      rw [hsize, ← f.octets_length, List.drop_left] at hlater
      exact htail hlater

/-- A heartbeat in one chunk and in three. -/
theorem receiveChunks_chunking_heartbeat :
    (receiveChunks (fun c => zeroMembers c.layout) ⟨.idle, List.replicate 8 0, none, 0, headerSize⟩
      [[8, 0, 0, 0, 0, 0, 0, 206]]).1 =
    (receiveChunks (fun c => zeroMembers c.layout) ⟨.idle, List.replicate 8 0, none, 0, headerSize⟩
      [[8, 0, 0], [], [0, 0, 0, 0, 206]]).1 := by
  have hoctets : Frame.octets ⟨0, .heartbeat⟩ = [8, 0, 0, 0, 0, 0, 0, 206] := by decide
  have hsafe := not_overruns_octets (fun c => zeroMembers c.layout) (f := ⟨0, .heartbeat⟩)
    ⟨by decide, trivial⟩ (not_overruns_nil _)
  rw [hoctets] at hsafe
  exact (receiveChunks_chunking _ (.idle (List.replicate 8 0) rfl) (by decide) hsafe).1

/-- A protocol header and a heartbeat, cut in the middle of both. -/
theorem receiveChunks_new_heartbeat :
    EndsAs (receiveChunks (fun c => zeroMembers c.layout) .new
      [[65, 77, 81], [80, 0, 0, 9, 1, 8, 0], [0, 0, 0, 0, 0, 206]])
      (parseStart (fun c => zeroMembers c.layout) [65, 77, 81, 80, 0, 0, 9, 1, 8, 0, 0, 0, 0, 0, 0, 206]) := by
  have hoctets : Frame.octets ⟨0, .heartbeat⟩ = [8, 0, 0, 0, 0, 0, 0, 206] := by decide
  have hsafe := not_overruns_octets (fun c => zeroMembers c.layout) (f := ⟨0, .heartbeat⟩)
    ⟨by decide, trivial⟩ (not_overruns_nil _)
  rw [hoctets] at hsafe
  exact (receiveChunks_new _ [[65, 77, 81], [80, 0, 0, 9, 1, 8, 0], [0, 0, 0, 0, 0, 206]]).2
    (by decide) hsafe

/-! ## What an overrun does -/

theorem lt_min_room {header size n : Nat} (hheader : header = 7) (hn : 2 ≤ n) :
    8 < header + min (2 ^ 64 + size - header) n := by
  omega

/-- A size just below 2^32 makes a block of eight octets for a frame. With two octets more in the
data than its header has, `consume_data` writes behind the block. -/
theorem amqpHandleInput_overflow {headerBuffer header rest : Bytes} (hbuffer : headerBuffer.length = 8)
    (hheader : header.length = headerSize) (hlow : 2 ^ 32 < frameSize header)
    (hhigh : frameSize header < 2 ^ 32 + headerSize) (hrest : 2 ≤ rest.length) :
    amqpHandleInput fresh ⟨.idle, headerBuffer, none, 0, headerSize⟩ (header ++ rest) = .error .outOfBounds := by
  have hlengths := @List.length_append _ header rest
  have hne : header ++ rest ≠ [] := by
    intro hnil
    rw [hnil] at hlengths
    unfold headerSize at hheader
    simp only [List.length_nil] at hlengths
    omega
  rw [amqpHandleInput_idle fresh hne]
  obtain ⟨headerBuffer', hlength', htake', heq⟩ := amqpHandleInput_filled fresh
    (show ConnectionState.header ≠ .idle by decide) (show headerSize ≤ headerBuffer.length by
      unfold headerSize; omega) (show headerBuffer.take ([] : Bytes).length = [] from rfl) hne
    (show headerSize ≤ ([] ++ (header ++ rest)).length by rw [List.nil_append]; omega) (Nat.zero_le headerSize)
  have hdrop : (header ++ rest).drop (headerSize - ([] : Bytes).length) = rest := List.drop_left' hheader
  have hsame : headerBuffer'.take headerSize = header := by
    rw [htake', List.nil_append]
    exact List.take_left' hheader
  have hnumber : numberAt 4 3 headerBuffer' = numberAt 4 3 header := by
    rw [← hsame, numberAt_take (show 3 + 4 ≤ headerSize from Nat.le_refl 7)]
  have hword : numberAt 4 3 header < 2 ^ 32 := by
    unfold frameSize headerSize at hhigh
    omega
  have htarget : (UInt32.ofNat (numberAt 4 3 headerBuffer') + 8).toNat = frameSize header - 2 ^ 32 := by
    unfold frameSize at hlow ⊢
    rw [hnumber, UInt32.toNat_add, UInt32.toNat_ofNat_of_lt' hword]
    have height : (8 : UInt32).toNat = 8 := rfl
    rw [height]
    omega
  rw [hdrop] at heq
  refine Eq.trans heq ?_
  dsimp only
  unfold startFrame
  simp only [Inbound.inboundBuffer, Option.getD_none, htarget, hsame]
  rw [if_neg (by omega)]
  have hblock : (frameSize header - 2 ^ 32 + 7) / 8 * 8 = 8 := by
    unfold headerSize at hhigh
    omega
  have hlength : (putAt (List.replicate 8 0) 0 header).length = 8 :=
    putAt_length (by rw [hheader]; decide)
  rw [hblock]
  have hroom : (Inbound.mk .body headerBuffer' (some (putAt (List.replicate 8 0) 0 header)) headerSize
      (frameSize header - 2 ^ 32)).room = 2 ^ 64 + (frameSize header - 2 ^ 32) - headerSize :=
    if_neg (by show ¬ headerSize ≤ frameSize header - 2 ^ 32; omega)
  have hconsume : consumeData ⟨.body, headerBuffer', some (putAt (List.replicate 8 0) 0 header), headerSize,
      frameSize header - 2 ^ 32⟩ rest = .error .outOfBounds := by
    unfold consumeData
    simp only [hroom, Inbound.inboundBuffer, Option.getD_some, hlength]
    exact if_pos (lt_min_room rfl hrest)
  rw [hconsume]
  rfl

/-- A method frame that says it is 4294967290 octets long. -/
theorem amqpHandleInput_overflow_method :
    amqpHandleInput (fun c => zeroMembers c.layout) ⟨.idle, List.replicate 8 0, none, 0, headerSize⟩
      ([1, 0, 0, 255, 255, 255, 250] ++ [0, 10]) = .error .outOfBounds :=
  amqpHandleInput_overflow _ rfl rfl (by decide) (by decide) (by decide)

end Neb2Amqp
