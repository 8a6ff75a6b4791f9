import Neb2Amqp.Librabbitmq.Stream

/-!
# Receiving in chunks

The connection, fed with the octets of a peer in chunks of any size, hands out the frames
that `parseStream` finds in the whole stream. For a stream of well-formed frames these are
the frames that were sent, and the connection is idle again in the end.
-/

namespace Neb2Amqp

open CLib

variable (fresh : ∀ c : PropertyClass, Members c.layout)

/-- The frames and the end of a run are those of the stream. At a frame that is too large nothing
is known but the frames before it. -/
def Agrees (result : List Frame × Except WireFault Inbound) (spec : List Frame × StreamEnd) : Prop :=
  match spec.2 with
  | .left pending => result.1 = spec.1 ∧ ∃ s, result.2 = .ok s ∧ Represents s pending
  | .fault fault => result.1 = spec.1 ∧ result.2 = .error fault
  | .oversized => spec.1 <+: result.1

theorem Agrees.cons {result : List Frame × Except WireFault Inbound} {spec : List Frame × StreamEnd}
    (h : Agrees result spec) (frames : List Frame) :
    Agrees (frames ++ result.1, result.2) (frames ++ spec.1, spec.2) := by
  unfold Agrees at h ⊢
  cases hspec : spec.2 with
  | left pending =>
      rw [hspec] at h
      exact ⟨by rw [h.1], h.2⟩
  | fault fault =>
      rw [hspec] at h
      exact ⟨by rw [h.1], h.2⟩
  | oversized =>
      rw [hspec] at h
      exact (List.prefix_append_right_inj frames).mpr h

/-! ## The stream in two parts -/

section

variable {stream : Bytes} (hheader : headerSize ≤ stream.length) (hsize : frameSize stream < 2 ^ 32)
  (hwhole : frameSize stream ≤ stream.length)

theorem parseStream_short (h : stream.length < headerSize ∨ stream.length < frameSize stream)
    (hsmall : headerSize ≤ stream.length → frameSize stream < 2 ^ 32) :
    parseStream fresh stream = ([], .left stream) := by
  unfold parseStream
  by_cases hshort : stream.length < headerSize
  · rw [dif_pos hshort]
  · have hlong := Nat.le_of_not_lt hshort
    rw [dif_neg hshort, if_neg (Nat.not_le.mpr (hsmall hlong)), if_pos (h.resolve_left hshort)]

include hheader

theorem parseStream_oversized (hlarge : 2 ^ 32 ≤ frameSize stream) :
    parseStream fresh stream = ([], .oversized) := by
  unfold parseStream
  rw [dif_neg (Nat.not_lt.mpr hheader), if_pos hlarge]

include hsize hwhole

theorem parseStream_fault {fault : WireFault}
    (h : decodeFrame fresh (stream.take (frameSize stream)) (frameSize stream) = .error fault) :
    parseStream fresh stream = ([], .fault fault) := by
  unfold parseStream
  rw [dif_neg (Nat.not_lt.mpr hheader), if_neg (Nat.not_le.mpr hsize), if_neg (Nat.not_lt.mpr hwhole), h]

theorem parseStream_frame {frame : Option Frame}
    (h : decodeFrame fresh (stream.take (frameSize stream)) (frameSize stream) = .ok frame) :
    parseStream fresh stream =
      (frame.toList ++ (parseStream fresh (stream.drop (frameSize stream))).1,
        (parseStream fresh (stream.drop (frameSize stream))).2) := by
  rw [parseStream.eq_1 fresh stream, dif_neg (Nat.not_lt.mpr hheader), if_neg (Nat.not_le.mpr hsize),
    if_neg (Nat.not_lt.mpr hwhole), h]

end

/-- What the second part of a stream adds to the frames of the first. -/
def parseMore (first : List Frame × StreamEnd) (more : Bytes) : List Frame × StreamEnd :=
  match first.2 with
  | .left pending =>
      let rest := parseStream fresh (pending ++ more)
      (first.1 ++ rest.1, rest.2)
  | .fault _ | .oversized => first

theorem parseStream_append (stream more : Bytes) :
    parseStream fresh (stream ++ more) = parseMore fresh (parseStream fresh stream) more := by
  fun_induction parseStream fresh stream with
  | case1 stream hshort => simp [parseMore]
  | case2 stream hheader hlarge =>
      have hlong := Nat.le_of_not_lt hheader
      apply parseStream_oversized
      · rw [List.length_append]
        omega
      · rwa [frameSize_append hlong]
  | case3 stream hheader hlarge hshort => simp [parseMore]
  | case4 stream hheader hlarge hwhole fault hfault =>
      have hlong := Nat.le_of_not_lt hheader
      have hframe := frameSize_append hlong more
      apply parseStream_fault
      · rw [List.length_append]
        omega
      · rw [hframe]
        omega
      · rw [hframe, List.length_append]
        omega
      · rwa [hframe, List.take_append_of_le_length (by omega)]
  | case5 stream hheader hlarge hwhole frame hframe rest ih =>
      have hlong := Nat.le_of_not_lt hheader
      have hsame := frameSize_append hlong more
      have hwhole := Nat.le_of_not_lt hwhole
      have hall : decodeFrame fresh ((stream ++ more).take (frameSize (stream ++ more)))
          (frameSize (stream ++ more)) = .ok frame := by
        rwa [hsame, List.take_append_of_le_length hwhole]
      rw [parseStream_frame fresh _ _ _ hall]
      · rw [hsame, List.drop_append_of_le_length hwhole, ih]
        unfold parseMore
        cases hrest : (parseStream fresh (stream.drop (frameSize stream))).2 with
        | left pending => simp [rest]
        | fault fault => simp [rest, hrest]
        | oversized => simp [rest, hrest]
      · rw [List.length_append]
        omega
      · rw [hsame]
        omega
      · rw [hsame, List.length_append]
        omega

/-! ## The loops -/

theorem Represents.short {s : Inbound} {pending : Bytes} (h : Represents s pending) :
    pending.length < headerSize ∨ pending.length < frameSize pending := by
  cases h with
  | idle => exact .inl (by decide)
  | header headerBuffer pending hbuffer hpos hshort hpending => exact .inl hshort
  | body headerBuffer block pending hbuffer hheader hshort hsize hblock hpending => exact .inr hshort

theorem Represents.parse {s : Inbound} {pending : Bytes} (h : Represents s pending) :
    parseStream fresh pending = ([], .left pending) := by
  apply parseStream_short fresh h.short
  intro hlong
  cases h with
  | idle => exact absurd hlong (by decide)
  | header headerBuffer pending hbuffer hpos hshort hpending => omega
  | body headerBuffer block pending hbuffer hheader hshort hsize hblock hpending => exact hsize

theorem Represents.lt_frameSize {s : Inbound} {pending : Bytes} (h : Represents s pending) (more : Bytes) :
    pending.length < frameSize (pending ++ more) := by
  by_cases hheader : headerSize ≤ pending.length
  · rw [frameSize_append hheader]
    exact h.short.resolve_left (by omega)
  · unfold headerSize at hheader
    unfold frameSize
    omega

theorem CallMeets.agrees {rounds seen : Nat} {s : Inbound} {data total : Bytes} (hdata : data ≠ [])
    (h : CallMeets fresh (amqpHandleInput fresh s data) total seen data.length)
    (hsize : headerSize ≤ total.length → frameSize total < 2 ^ 32) (hseen : seen < frameSize total)
    (hdrop : total.drop (frameSize total) = data.drop (frameSize total - seen))
    (hrounds : data.length ≤ rounds + 1)
    (hrest : ∀ {s' : Inbound}, Represents s' [] →
      ∀ {rest : Bytes}, rest.length ≤ rounds →
        Agrees (consumeFrames fresh rounds s' rest) (parseStream fresh rest)) :
    Agrees (consumeFrames fresh (rounds + 1) s data) (parseStream fresh total) := by
  cases data with
  | nil => exact absurd rfl hdata
  | cons u rest =>
      unfold consumeFrames
      unfold CallMeets at h
      split at h
      · rename_i hshort
        obtain ⟨s', hcall, hnext⟩ := h
        rw [hcall, parseStream_short fresh hshort hsize]
        simp only [List.drop_length, Option.toList_none, List.nil_append]
        exact ⟨by cases rounds <;> rfl, s', by cases rounds <;> rfl, hnext⟩
      · rename_i hlong
        obtain ⟨hheader, hwhole⟩ := not_or.mp hlong
        have hheader := Nat.le_of_not_lt hheader
        have hwhole := Nat.le_of_not_lt hwhole
        obtain ⟨s', hnext, hcall⟩ := h
        cases hdecoded : decodeFrame fresh (total.take (frameSize total)) (frameSize total) with
        | error fault =>
            rw [hcall, hdecoded, parseStream_fault fresh hheader (hsize hheader) hwhole hdecoded]
            exact ⟨rfl, rfl⟩
        | ok frame =>
            have hless : ((u :: rest).drop (frameSize total - seen)).length ≤ rounds := by
              rw [List.length_drop]
              omega
            have hgo := (hrest hnext hless).cons frame.toList
            rw [hcall, hdecoded, parseStream_frame fresh hheader (hsize hheader) hwhole hdecoded, hdrop]
            exact hgo

theorem consumeFrames_agrees {rounds : Nat} {s : Inbound} {pending data : Bytes}
    (h : Represents s pending) (hrounds : data.length ≤ rounds) :
    Agrees (consumeFrames fresh rounds s data) (parseStream fresh (pending ++ data)) := by
  induction rounds generalizing s pending data with
  | zero =>
      have hnil : data = [] := List.length_eq_zero_iff.mp (by omega)
      subst hnil
      rw [List.append_nil, h.parse fresh]
      exact ⟨rfl, s, rfl, h⟩
  | succ rounds ih =>
      cases data with
      | nil =>
          rw [List.append_nil, h.parse fresh]
          exact ⟨rfl, s, rfl, h⟩
      | cons u rest =>
          have hdata := List.cons_ne_nil u rest
          by_cases hsize : headerSize ≤ (pending ++ u :: rest).length →
              frameSize (pending ++ u :: rest) < 2 ^ 32
          · have hpending := h.lt_frameSize (u :: rest)
            apply (amqpHandleInput_meets fresh h hdata hsize).agrees fresh hdata hsize hpending
            · rw [List.drop_append, List.drop_of_length_le (Nat.le_of_lt hpending), List.nil_append]
            · exact hrounds
            · intro s' hidle rest' hless
              exact ih hidle hless
          · obtain ⟨hheader, hlarge⟩ := Classical.not_imp.mp hsize
            rw [parseStream_oversized fresh hheader (Nat.le_of_not_lt hlarge)]
            exact List.nil_prefix

theorem Agrees.receive {s : Inbound} {chunk : Bytes} {spec : List Frame × StreamEnd}
    (h : Agrees (consumeFrames fresh chunk.length s chunk) spec) (chunks : List Bytes)
    (hrest : ∀ {s' : Inbound} {pending : Bytes}, Represents s' pending →
      Agrees (receiveChunks fresh s' chunks) (parseStream fresh (pending ++ chunks.flatten))) :
    Agrees (receiveChunks fresh s (chunk :: chunks)) (parseMore fresh spec chunks.flatten) := by
  unfold receiveChunks
  unfold Agrees at h
  unfold parseMore
  cases hend : spec.2 with
  | left next =>
      rw [hend] at h
      obtain ⟨hframes, s', hresult, hnext⟩ := h
      have hcall : consumeFrames fresh chunk.length s chunk = (spec.1, .ok s') := Prod.ext hframes hresult
      rw [hcall]
      exact (hrest hnext).cons _
  | fault fault =>
      rw [hend] at h
      have hcall : consumeFrames fresh chunk.length s chunk = (spec.1, .error fault) := Prod.ext h.1 h.2
      rw [hcall]
      unfold Agrees
      rw [hend]
      exact ⟨rfl, rfl⟩
  | oversized =>
      rw [hend] at h
      unfold Agrees
      rw [hend]
      cases hcall : consumeFrames fresh chunk.length s chunk with
      | mk frames result =>
          rw [hcall] at h
          cases result with
          | error fault => exact h
          | ok s' => exact h.trans (List.prefix_append _ _)

/-- However the octets are cut into chunks, what comes of them is what comes of the stream. -/
theorem receiveChunks_agrees {s : Inbound} {pending : Bytes} (h : Represents s pending)
    (chunks : List Bytes) :
    Agrees (receiveChunks fresh s chunks) (parseStream fresh (pending ++ chunks.flatten)) := by
  induction chunks generalizing s pending with
  | nil =>
      rw [List.flatten_nil, List.append_nil, h.parse fresh]
      exact ⟨rfl, s, rfl, h⟩
  | cons chunk chunks ih =>
      rw [List.flatten_cons, ← List.append_assoc, parseStream_append]
      exact (consumeFrames_agrees fresh h (Nat.le_refl chunk.length)).receive fresh chunks ih

end Neb2Amqp
