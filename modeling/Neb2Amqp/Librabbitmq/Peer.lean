import Neb2Amqp.Librabbitmq.Clone
import Neb2Amqp.Librabbitmq.FrameStreams
import Neb2Amqp.Librabbitmq.Publish

/-!
# What a peer makes of what was sent

The octets that left a connection may end anywhere. A peer that parses them finds the frames that
were sent completely, in their order, and is in the middle of the next one. A message is complete
at the peer exactly if `amqp_basic_publish` did not fail.
-/

namespace Neb2Amqp

open CLib

variable (fresh : ∀ c : PropertyClass, Members c.layout)

theorem parseStream_part_of_frame {f : Frame} (h : f.payload.Sized) {part missing : Bytes}
    (hparts : f.octets = part ++ missing) (hmissing : missing ≠ []) :
    parseStream fresh part = ([], .left part) := by
  have hlength := f.octets_length
  have hsum := @List.length_append _ part missing
  have hpos := List.length_pos_iff.mpr hmissing
  have hsize : headerSize ≤ part.length → frameSize part = f.payload.octets.length + 8 := by
    intro hheader
    rw [← frameSize_append hheader missing, ← hparts, ← List.append_nil f.octets]
    exact wholeFrame_size _ _ _ (Nat.lt_trans h.1 (by decide)) []
  rw [← hparts] at hsum
  have hbound := h.1
  apply parseStream_short
  · by_cases hheader : headerSize ≤ part.length
    · have hframe := hsize hheader
      omega
    · exact .inl (Nat.lt_of_not_le hheader)
  · intro hheader
    have hframe := hsize hheader
    omega

/-- Some first octets of frames: as many frames as are complete, and all of them only if nothing
is missing. -/
theorem parseStream_part {frames : List Frame} (h : ∀ f ∈ frames, f.payload.Sized) {part : Bytes}
    (hpart : part <+: frames.flatMap Frame.octets) :
    ∃ n pending, parseStream fresh part = ((frames.take n).map (Frame.arrived fresh), .left pending) ∧
      (part ≠ frames.flatMap Frame.octets → n < frames.length) := by
  induction frames generalizing part with
  | nil =>
      rw [List.flatMap_nil, List.prefix_nil] at hpart
      rw [hpart, parseStream_nil]
      exact ⟨0, [], rfl, fun hne => absurd rfl hne⟩
  | cons f rest ih =>
      rw [List.flatMap_cons] at hpart
      have hf := h f List.mem_cons_self
      by_cases hwhole : f.octets.length ≤ part.length
      · obtain ⟨part', hsplit⟩ :=
          List.prefix_of_prefix_length_le (List.prefix_append f.octets _) hpart hwhole
        rw [← hsplit] at hpart
        obtain ⟨n, pending, hparse, hn⟩ :=
          ih (fun g hg => h g (List.mem_cons_of_mem f hg)) ((List.prefix_append_right_inj _).mp hpart)
        refine ⟨n + 1, pending, ?_, ?_⟩
        · rw [← hsplit, parseStream_octets fresh hf, hparse]
          rfl
        · intro hne
          rw [List.length_cons]
          apply Nat.succ_lt_succ
          apply hn
          intro hall
          apply hne
          rw [← hsplit, hall, List.flatMap_cons]
      · have hbefore : part <+: f.octets :=
          List.prefix_of_prefix_length_le hpart (List.prefix_append f.octets _) (by omega)
        obtain ⟨missing, hparts⟩ := hbefore
        refine ⟨0, part, ?_, fun _ => Nat.zero_lt_succ _⟩
        apply parseStream_part_of_frame fresh hf hparts.symm
        intro hnone
        rw [hnone, List.append_nil] at hparts
        rw [hparts] at hwhole
        exact hwhole (Nat.le_refl _)

/-! ## Frames from one end to the other -/

/-- Frames that are sent one after the other, up to the first failure, and received in chunks of any
size: they are handed out in their order, all of them if nothing failed and not all of them if
something did. The connection is left in the middle of the next one, or idle behind the last. -/
theorem receiveChunks_amqpSendFrameOn (outbound : Bytes) {frames : List Frame}
    (h : ∀ f ∈ frames, f.payload.Sized) {s s' : Socket} {result : Except WireFault Unit}
    (hrun : Attempt.each (amqpSendFrameOn outbound) frames s = (result, s')) :
    ∃ out, s'.sent = s.sent ++ out ∧
      ∀ {r : Inbound} {chunks : List Bytes}, Represents r [] → chunks.flatten = out →
        ∃ n r' pending, receiveChunks fresh r chunks = ((frames.take n).map (Frame.arrived fresh), .ok r') ∧
          Represents r' pending ∧
          match result with
          | .ok () => frames.length ≤ n ∧ pending = []
          | .error _ => n < frames.length := by
  have hproperties : ∀ f ∈ frames, ∀ bodySize p, f.payload = .header bodySize p → p.Sized := by
    intro f hf bodySize p hpayload
    have hsized := h f hf
    rw [hpayload] at hsized
    exact hsized.2
  have hemits : Emits Socket.sent (Attempt.each (amqpSendFrameOn outbound) frames) (frames.flatMap Frame.octets) :=
    Emits.each fun f hf => emits_amqpSendFrameOn outbound (hproperties f hf)
  cases result with
  | ok =>
      refine ⟨_, hemits.all hrun, ?_⟩
      intro r chunks hr hchunks
      obtain ⟨r', hreceived, hidle⟩ := receiveChunks_frames fresh h hr hchunks
      refine ⟨frames.length, r', [], ?_, hidle, Nat.le_refl _, rfl⟩
      rw [List.take_length, hreceived]
  | error fault =>
      obtain ⟨front, hfront, hsent⟩ := hemits.part hrun
      obtain ⟨n, pending, hparse, hn⟩ := parseStream_part fresh h hfront
      refine ⟨front, hsent, ?_⟩
      intro r chunks hr hchunks
      have hagrees := receiveChunks_agrees fresh hr chunks
      rw [List.nil_append, hchunks, hparse] at hagrees
      obtain ⟨hframes, r', hresult, hpending⟩ := hagrees
      refine ⟨n, r', pending, Prod.ext hframes hresult, hpending, hn ?_⟩
      intro hall
      rw [hall] at hsent
      have hearly := Early.each (fun f hf => emits_amqpSendFrameOn outbound (hproperties f hf))
        (fun f hf => early_amqpSendFrameOn outbound (hproperties f hf)) fun f _ => f.octets_ne_nil
      exact hearly s fault s' hrun hsent

/-- Two bodies whose sending fails within the second one. -/
theorem receiveChunks_amqpSendFrameOn_failed :
    ∃ n r', receiveChunks (fun c => zeroMembers c.layout) ⟨.idle, List.replicate 8 0, none, 0, headerSize⟩
      [[3, 0, 1, 0, 0], [0, 1, 7, 206, 3], [0, 1]] =
        (([⟨1, .body [7]⟩, ⟨1, .body [1, 2, 3]⟩].take n).map (Frame.arrived fun c => zeroMembers c.layout),
          .ok r') ∧ n < 2 := by
  have hsized : ∀ f ∈ ([⟨1, .body [7]⟩, ⟨1, .body [1, 2, 3]⟩] : List Frame), f.payload.Sized := by
    intro f hf
    rcases List.mem_cons.mp hf with heq | hf
    · rw [heq]
      exact ⟨by decide, trivial⟩
    · rw [List.mem_singleton.mp hf]
      exact ⟨by decide, trivial⟩
  have hrun : Attempt.each (amqpSendFrameOn (List.replicate 8 0)) [⟨1, .body [7]⟩, ⟨1, .body [1, 2, 3]⟩]
      (Socket.mk [.took 7, .took 1, .interrupted, .took 1, .took 3, .failed] []) =
        (.error (.status .socketError), ⟨[], [3, 0, 1, 0, 0, 0, 1, 7, 206, 3, 0, 1]⟩) := rfl
  obtain ⟨out, hsent, hreceived⟩ := receiveChunks_amqpSendFrameOn (fun c => zeroMembers c.layout) _ hsized hrun
  have hchunks : List.flatten [[3, 0, 1, 0, 0], [0, 1, 7, 206, 3], [0, 1]] = out := hsent
  obtain ⟨n, r', pending, hframes, _, hn⟩ := hreceived (.idle (List.replicate 8 0) rfl) hchunks
  exact ⟨n, r', hframes, hn⟩

/-! ## Messages -/

section

variable {o : Outbound} {channel : UInt16} {exchange routingKey : Bytes} {mandatory immediate : Bool}
  {properties : Properties} {body : Bytes}

/-- What can be published: names that are short strings, and frames of a size the peer can read. -/
structure Publishable (o : Outbound) (exchange routingKey : Bytes) (properties : Properties) : Prop where
  hexchange : exchange.length < 256
  hroutingKey : routingKey.length < 256
  hproperties : properties.Sized
  hheader : properties.octets.length < 2 ^ 32 - 20
  hframeMin : headerSize + footerSize < o.frameMax
  hframeMax : o.frameMax < 2 ^ 32

theorem Publishable.usable (h : Publishable o exchange routingKey properties) :
    o.usable = o.frameMax - 8 ∧ 0 < o.usable := by
  have hmin := h.hframeMin
  unfold headerSize footerSize at hmin
  have husable : o.usable = o.frameMax - (headerSize + footerSize) := if_pos (Nat.le_of_lt h.hframeMin)
  unfold headerSize footerSize at husable
  omega

theorem publishMethod_sized (hexchange : exchange.length < 256) (hroutingKey : routingKey.length < 256)
    (mandatory immediate : Bool) :
    (FramePayload.method (publishMethod exchange routingKey mandatory immediate)).Sized := by
  constructor
  · simp only [FramePayload.octets, MethodCall.octets, publishMethod, Method.layout, argsOctets, fieldOctets,
      List.length_append, bigEndian_length, counted_length, List.length_nil]
    omega
  · exact ⟨trivial, hexchange, hroutingKey, show (2 : Nat) ≤ 8 by omega, trivial⟩

theorem publishFrames_sized (h : Publishable o exchange routingKey properties) :
    ∀ f ∈ publishFrames o channel exchange routingKey mandatory immediate properties body,
      f.payload.Sized := by
  intro f hf
  have husable := h.usable
  have hmax := h.hframeMax
  rcases List.mem_cons.mp hf with hmethod | hf
  · rw [hmethod]
    exact publishMethod_sized h.hexchange h.hroutingKey mandatory immediate
  · rcases List.mem_cons.mp hf with hheader | hbody
    · rw [hheader]
      refine ⟨?_, h.hproperties⟩
      have hlength := h.hheader
      simp only [FramePayload.octets, List.length_append, bigEndian_length]
      omega
    · obtain ⟨fragment, hfragment, hframe⟩ := List.mem_map.mp hbody
      rw [← hframe]
      have hlength := (mem_fragments husable.2 hfragment).2
      refine ⟨?_, trivial⟩
      show fragment.length < 2 ^ 32 - 8
      omega

theorem publishOctets_length (o : Outbound) (channel : UInt16) (exchange routingKey : Bytes)
    (mandatory immediate : Bool) (properties : Properties) (body : Bytes) :
    0 < ((publishFrames o channel exchange routingKey mandatory immediate properties body).flatMap
      Frame.octets).length := by
  apply List.length_pos_iff.mpr
  unfold publishFrames
  rw [List.flatMap_cons]
  exact List.append_ne_nil_of_left_ne_nil (Frame.octets_ne_nil _) _

/-- What a call of `amqp_basic_publish` hands over, a peer parses into the frames of the message: all
of them if the call returned `AMQP_STATUS_OK`, and not all of them if it did not. -/
theorem amqpBasicPublishOn_frames (h : Publishable o exchange routingKey properties) {s s' : Socket}
    {result : Except WireFault Unit}
    (hrun : amqpBasicPublishOn o channel exchange routingKey mandatory immediate properties body s =
      (result, s')) :
    ∃ out n pending, s'.sent = s.sent ++ out ∧
      parseStream fresh out =
        (((publishFrames o channel exchange routingKey mandatory immediate properties body).take n).map
          (Frame.arrived fresh), .left pending) ∧
      match result with
      | .ok () => (publishFrames o channel exchange routingKey mandatory immediate properties body).length ≤ n ∧
          pending = []
      | .error _ =>
          n < (publishFrames o channel exchange routingKey mandatory immediate properties body).length := by
  have hframes : ∀ f ∈ publishFrames o channel exchange routingKey mandatory immediate properties body,
      f.payload.Sized := publishFrames_sized h
  have hemits : Emits Socket.sent
      (amqpBasicPublishOn o channel exchange routingKey mandatory immediate properties body) _ :=
    emits_amqpBasicPublishOn h.hproperties
  cases result with
  | ok =>
      refine ⟨_, _, [], hemits.all hrun, ?_, Nat.le_refl _, rfl⟩
      have hparse := parseStream_frames fresh hframes []
      rw [List.append_nil, parseStream_nil, List.append_nil] at hparse
      rw [List.take_length, hparse]
  | error fault =>
      obtain ⟨front, hfront, hsent⟩ := hemits.part hrun
      obtain ⟨n, pending, hparse, hn⟩ := parseStream_part fresh hframes hfront
      refine ⟨front, n, pending, hsent, hparse, hn ?_⟩
      intro hall
      rw [hall] at hsent
      exact early_amqpBasicPublishOn h.hproperties h.usable.2 s fault s' hrun hsent

end

end Neb2Amqp
