import Neb2Amqp.Librabbitmq.FrameStreams

/-!
# Receiving on a new connection

A new connection waits for eight octets, as many as a protocol header has. If these are none they
start a frame; seven of them, its header, are copied to the block of the frame, and what was
the eighth is 0 there.
-/

namespace Neb2Amqp

open CLib

variable (fresh : ∀ c : PropertyClass, Members c.layout)

/-- What is read of a stream of at least eight octets as frames: all behind a protocol header, or
everything, with the eighth octet gone. -/
def startStream (stream : Bytes) : Bytes :=
  if stream.take 4 = (CString.lit "AMQP").bytes then stream.drop 8 else stream.set 7 0

/-- What a stream of at least eight octets is on a new connection. -/
def parseStart (stream : Bytes) : List Frame × StreamEnd :=
  if stream.take 4 = (CString.lit "AMQP").bytes then
    let rest := parseStream fresh (stream.drop 8)
    (protocolHeaderFrame stream :: rest.1, rest.2)
  else parseStream fresh (stream.set 7 0)

theorem parseStart_end (stream : Bytes) :
    (parseStart fresh stream).2 = (parseStream fresh (startStream stream)).2 := by
  unfold parseStart startStream
  split
  · rfl
  · rfl

/-- A connection that has seen less than eight octets. -/
inductive Begins : Inbound → Bytes → Prop
  | initial (headerBuffer pending : Bytes) (hbuffer : headerBuffer.length = 8)
      (hshort : pending.length < 8) (hpending : headerBuffer.take pending.length = pending) :
      Begins ⟨.initial, headerBuffer, none, pending.length, 8⟩ pending

theorem begins_new : Begins .new [] := .initial (List.replicate 8 0) [] rfl (by decide) rfl

theorem protocolHeaderFrame_take {stream : Bytes} :
    protocolHeaderFrame (stream.take 8) = protocolHeaderFrame stream := by
  unfold protocolHeaderFrame
  rw [numberAt_take (by decide), numberAt_take (by decide), numberAt_take (by decide),
    numberAt_take (by decide)]

theorem set_seven {stream : Bytes} (h : 8 ≤ stream.length) :
    stream.set 7 0 = stream.take headerSize ++ [0] ++ stream.drop 8 := by
  rw [List.set_eq_take_append_cons_drop, if_pos (by omega), List.append_assoc]
  rfl

theorem frameSize_set_seven (stream : Bytes) : frameSize (stream.set 7 0) = frameSize stream := by
  unfold frameSize
  rw [← numberAt_take (Nat.le_refl (3 + 4)) (stream.set 7 0), List.take_set_of_le (Nat.le_refl 7),
    numberAt_take (Nat.le_refl (3 + 4))]

/-! ## One call -/

section

variable {s : Inbound} {pending data : Bytes}

theorem amqpHandleInput_starting (h : Begins s pending) (hdata : data ≠ [])
    (hshort : (pending ++ data).length < 8) :
    ∃ s', amqpHandleInput fresh s data = .ok (data.length, none, s') ∧ Begins s' (pending ++ data) := by
  cases h with
  | initial headerBuffer pending hbuffer hfew hpending =>
      obtain ⟨headerBuffer', hlength', htake', heq⟩ := amqpHandleInput_short fresh
        (show ConnectionState.initial ≠ .idle by decide) (Nat.le_of_eq hbuffer.symm) hpending hdata hshort
      exact ⟨_, heq, .initial headerBuffer' _ (by omega) hshort htake'⟩

theorem amqpHandleInput_protocolHeader (h : Begins s pending) (hdata : data ≠ [])
    (hlong : 8 ≤ (pending ++ data).length) (hheader : (pending ++ data).take 4 = (CString.lit "AMQP").bytes) :
    ∃ s', Represents s' [] ∧ amqpHandleInput fresh s data =
      .ok (8 - pending.length, some (protocolHeaderFrame (pending ++ data)), s') := by
  cases h with
  | initial headerBuffer pending hbuffer hfew hpending =>
      obtain ⟨headerBuffer', hlength', htake', heq⟩ := amqpHandleInput_filled fresh
        (show ConnectionState.initial ≠ .idle by decide) (Nat.le_of_eq hbuffer.symm) hpending hdata hlong
        (Nat.le_of_lt hfew)
      have hall : headerBuffer' = (pending ++ data).take 8 := by
        rw [← htake', List.take_of_length_le (by omega)]
      have hsame : headerBuffer'.take 4 = (CString.lit "AMQP").bytes := by
        rw [hall, List.take_take]
        exact hheader
      simp only [hsame, if_true] at heq
      refine ⟨_, .idle headerBuffer' (by omega), ?_⟩
      rw [heq, hall, protocolHeaderFrame_take]

theorem amqpHandleInput_firstFrame (h : Begins s pending) (hdata : data ≠ [])
    (hlong : 8 ≤ (pending ++ data).length) (hheader : (pending ++ data).take 4 ≠ (CString.lit "AMQP").bytes)
    (hsize : frameSize (pending ++ data) < 2 ^ 32) :
    CallMeets fresh (amqpHandleInput fresh s data) ((pending ++ data).set 7 0) pending.length data.length := by
  cases h with
  | initial headerBuffer pending hbuffer hfew hpending =>
      obtain ⟨headerBuffer', hlength', htake', heq⟩ := amqpHandleInput_filled fresh
        (show ConnectionState.initial ≠ .idle by decide) (Nat.le_of_eq hbuffer.symm) hpending hdata hlong
        (Nat.le_of_lt hfew)
      have hlengths := @List.length_append _ pending data
      have hother : headerBuffer'.take 4 ≠ (CString.lit "AMQP").bytes := by
        intro hsame
        have htaken := congrArg (List.take 4) htake'
        rw [List.take_take, List.take_take] at htaken
        exact hheader (htaken.symm.trans hsame)
      simp only [hother, if_false] at heq
      have hseven : headerBuffer'.take headerSize = (pending ++ data).take headerSize := by
        have htaken := congrArg (List.take headerSize) htake'
        rwa [List.take_take, List.take_take] at htaken
      have hframe : frameSize ((pending ++ data).take headerSize) = frameSize (pending ++ data) := by
        unfold frameSize
        rw [numberAt_take (Nat.le_refl 7)]
      have hmeets := startFrame_meets fresh (data.drop (8 - pending.length)) .initial 8 (by omega) hseven
        (by rw [List.length_take]; unfold headerSize; omega) (by rw [hframe]; exact hsize) (Nat.le_refl 1)
        (show 8 - pending.length + pending.length = headerSize + 1 by unfold headerSize; omega)
      have htotal : (pending ++ data).take headerSize ++ List.replicate 1 0 ++ data.drop (8 - pending.length) =
          (pending ++ data).set 7 0 := by
        rw [set_seven hlong, List.drop_append, List.drop_of_length_le (Nat.le_of_lt hfew)]
        rfl
      have hall : 8 - pending.length + (data.drop (8 - pending.length)).length = data.length := by
        rw [List.length_drop]
        omega
      rw [htotal, hall] at hmeets
      rw [heq]
      exact hmeets

end

/-! ## The loops -/

theorem consumeFrames_starting {s : Inbound} {pending data : Bytes} (h : Begins s pending)
    (hshort : (pending ++ data).length < 8) :
    ∃ s', consumeFrames fresh data.length s data = ([], .ok s') ∧ Begins s' (pending ++ data) := by
  cases data with
  | nil =>
      rw [List.append_nil]
      exact ⟨s, rfl, h⟩
  | cons u rest =>
      obtain ⟨s', hcall, hnext⟩ := amqpHandleInput_starting fresh h (List.cons_ne_nil u rest) hshort
      refine ⟨s', ?_, hnext⟩
      have hdrop : (u :: rest).drop (rest.length + 1) = [] := List.drop_length
      unfold consumeFrames
      simp only [List.length_cons] at hcall ⊢
      rw [hcall]
      simp only [hdrop, Option.toList_none, List.nil_append]
      cases rest <;> rfl

theorem consumeFrames_start {s : Inbound} {pending data : Bytes} (h : Begins s pending)
    (hlong : 8 ≤ (pending ++ data).length) :
    Agrees (consumeFrames fresh data.length s data) (parseStart fresh (pending ++ data)) := by
  have hfew : pending.length < 8 := by
    cases h with
    | initial headerBuffer pending hbuffer hfew hpending => exact hfew
  have hlengths := @List.length_append _ pending data
  cases data with
  | nil =>
      rw [List.append_nil] at hlong
      omega
  | cons u rest =>
      have hdata := List.cons_ne_nil u rest
      unfold parseStart
      by_cases hheader : (pending ++ u :: rest).take 4 = (CString.lit "AMQP").bytes
      · obtain ⟨s', hidle, hcall⟩ := amqpHandleInput_protocolHeader fresh h hdata hlong hheader
        have hless : ((u :: rest).drop (8 - pending.length)).length ≤ rest.length := by
          rw [List.length_drop, List.length_cons]
          omega
        have hgo := (consumeFrames_agrees fresh hidle hless).cons [protocolHeaderFrame (pending ++ u :: rest)]
        have hdrop : (pending ++ u :: rest).drop 8 = (u :: rest).drop (8 - pending.length) := by
          rw [List.drop_append, List.drop_of_length_le (Nat.le_of_lt hfew), List.nil_append]
        unfold consumeFrames
        simp only [List.length_cons]
        rw [if_pos hheader, hdrop, hcall]
        exact hgo
      · rw [if_neg hheader]
        have hset : ((pending ++ u :: rest).set 7 0).length = (pending ++ u :: rest).length := List.length_set
        have hframe := frameSize_set_seven (pending ++ u :: rest)
        have hmore : 8 ≤ frameSize (pending ++ u :: rest) := by
          unfold frameSize
          omega
        by_cases hsize : frameSize (pending ++ u :: rest) < 2 ^ 32
        · have hmeets := amqpHandleInput_firstFrame fresh h hdata hlong hheader hsize
          apply hmeets.agrees fresh hdata
          · intro _
            rwa [hframe]
          · rw [hframe]
            omega
          · rw [hframe, List.drop_set_of_lt hmore, List.drop_append, List.drop_of_length_le (by omega),
              List.nil_append]
          · exact Nat.le_refl _
          · intro s' hidle rest' hless
            exact consumeFrames_agrees fresh hidle hless
        · rw [parseStream_oversized fresh (by unfold headerSize; omega) (by omega)]
          exact List.nil_prefix

theorem parseStart_append {stream : Bytes} (h : 8 ≤ stream.length) (more : Bytes) :
    parseStart fresh (stream ++ more) = parseMore fresh (parseStart fresh stream) more := by
  have hheader : (stream ++ more).take 4 = stream.take 4 := List.take_append_of_le_length (by omega)
  unfold parseStart
  rw [hheader]
  by_cases hprotocol : stream.take 4 = (CString.lit "AMQP").bytes
  · rw [if_pos hprotocol, if_pos hprotocol, List.drop_append_of_le_length h, parseStream_append,
      ← protocolHeaderFrame_take, List.take_append_of_le_length h, protocolHeaderFrame_take]
    unfold parseMore
    cases (parseStream fresh (stream.drop 8)).2 <;> rfl
  · rw [if_neg hprotocol, if_neg hprotocol, List.set_append_left _ _ (by omega), parseStream_append]

theorem receiveChunks_start {s : Inbound} {pending : Bytes} (h : Begins s pending) (chunks : List Bytes) :
    if (pending ++ chunks.flatten).length < 8 then
      ∃ s', receiveChunks fresh s chunks = ([], .ok s') ∧ Begins s' (pending ++ chunks.flatten)
    else Agrees (receiveChunks fresh s chunks) (parseStart fresh (pending ++ chunks.flatten)) := by
  induction chunks generalizing s pending with
  | nil =>
      rw [List.flatten_nil, List.append_nil]
      have hfew : pending.length < 8 := by
        cases h with
        | initial headerBuffer pending hbuffer hfew hpending => exact hfew
      rw [if_pos hfew]
      exact ⟨s, rfl, h⟩
  | cons chunk chunks ih =>
      rw [List.flatten_cons, ← List.append_assoc]
      by_cases hfirst : (pending ++ chunk).length < 8
      · obtain ⟨s', hcall, hnext⟩ := consumeFrames_starting fresh h hfirst
        unfold receiveChunks
        rw [hcall]
        exact ih hnext
      · have hlong := Nat.le_of_not_lt hfirst
        have hall : ¬ (pending ++ chunk ++ chunks.flatten).length < 8 := by
          rw [List.length_append]
          omega
        rw [if_neg hall, parseStart_append fresh hlong]
        exact (consumeFrames_start fresh h hlong).receive fresh chunks
          fun hnext => receiveChunks_agrees fresh hnext chunks

theorem receiveChunks_new_agrees (chunks : List Bytes) :
    if chunks.flatten.length < 8 then
      ∃ s, receiveChunks fresh .new chunks = ([], .ok s) ∧ Begins s chunks.flatten
    else Agrees (receiveChunks fresh .new chunks) (parseStart fresh chunks.flatten) :=
  receiveChunks_start fresh begins_new chunks

end Neb2Amqp
