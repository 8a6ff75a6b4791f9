import Neb2Amqp.Library.Emits
import Neb2Amqp.Librabbitmq.Frames

/-!
# Sending on a socket

`amqp_tcp_socket_send_inner` and `amqp_tcp_socket_writev` of amqp_tcp_socket.c, where `send` takes
as many octets as it likes or is interrupted, and on top of them `amqp_send_frame`. The flags of
`send` do not change what is sent.
-/

namespace Neb2Amqp

open CLib

/-- What `send` answers. It never takes more than it was given. -/
inductive SendAnswer
  | took (n : Nat)
  | interrupted
  | failed

/-- The answers that `send` is going to give, and the octets it took so far. -/
structure Socket where
  answers : List SendAnswer
  sent : Bytes

/-- The loop at `start:`. -/
def sendLoop (sent : Bytes) : List SendAnswer → Bytes → Except WireFault Unit × Socket
  | [], _ => (.error .unfinished, ⟨[], sent⟩)
  | .interrupted :: answers, bufLeft => sendLoop sent answers bufLeft
  | .failed :: answers, _ => (.error (.status .socketError), ⟨answers, sent⟩)
  | .took n :: answers, bufLeft =>
      let res := min n bufLeft.length
      if res = bufLeft.length then (.ok (), ⟨answers, sent ++ bufLeft⟩)
      else sendLoop (sent ++ bufLeft.take res) answers (bufLeft.drop res)

def amqpTcpSocketSendInner (buf : Bytes) : Attempt Socket WireFault := fun s =>
  sendLoop s.sent s.answers buf

/-- The pieces of an `iov`. -/
def amqpTcpSocketWritev : List Bytes → Attempt Socket WireFault := .each amqpTcpSocketSendInner

/-- `amqp_send_frame` with the socket that the frame goes out on. -/
def amqpSendFrameOn (outbound : Bytes) (frame : Frame) : Attempt Socket WireFault :=
  match amqpSendFrame outbound frame with
  | .ok pieces => amqpTcpSocketWritev pieces
  | .error fault => .fail fault

/-! ## What goes out -/

theorem sendLoop_ok {sent buf : Bytes} {answers : List SendAnswer} {s : Socket}
    (h : sendLoop sent answers buf = (.ok (), s)) : s.sent = sent ++ buf := by
  induction answers generalizing sent buf with
  | nil => cases h
  | cons answer answers ih =>
      cases answer with
      | interrupted => exact ih h
      | failed => cases h
      | took n =>
          unfold sendLoop at h
          dsimp only at h
          split at h
          · cases h
            rfl
          · rw [ih h, List.append_assoc, List.take_append_drop]

theorem sendLoop_error {sent buf : Bytes} {answers : List SendAnswer} {fault : WireFault} {s : Socket}
    (h : sendLoop sent answers buf = (.error fault, s)) :
    ∃ front rest, buf = front ++ rest ∧ s.sent = sent ++ front ∧ (buf ≠ [] → rest ≠ []) := by
  induction answers generalizing sent buf with
  | nil =>
      cases h
      exact ⟨[], buf, rfl, (List.append_nil sent).symm, id⟩
  | cons answer answers ih =>
      cases answer with
      | interrupted => exact ih h
      | failed =>
          cases h
          exact ⟨[], buf, rfl, (List.append_nil sent).symm, id⟩
      | took n =>
          unfold sendLoop at h
          dsimp only at h
          split at h
          · cases h
          · rename_i hsome
            obtain ⟨front, rest, hleft, hsent, hrest⟩ := ih h
            refine ⟨buf.take (min n buf.length) ++ front, rest, ?_, ?_, ?_⟩
            · rw [List.append_assoc, ← hleft, List.take_append_drop]
            · rw [hsent, List.append_assoc]
            · intro _
              apply hrest
              intro hnone
              have hall := List.drop_eq_nil_iff.mp hnone
              omega

theorem emits_amqpTcpSocketSendInner (buf : Bytes) :
    Emits Socket.sent (amqpTcpSocketSendInner buf) buf where
  all := sendLoop_ok
  part := by
    intro s fault s' h
    obtain ⟨front, rest, hbuf, hsent, _⟩ := sendLoop_error h
    exact ⟨front, hbuf ▸ List.prefix_append front rest, hsent⟩

theorem early_amqpTcpSocketSendInner {buf : Bytes} (hbuf : buf ≠ []) :
    Early Socket.sent (amqpTcpSocketSendInner buf) buf := by
  intro s fault s' h hall
  obtain ⟨front, rest, hparts, hsent, hrest⟩ := sendLoop_error h
  rw [hsent] at hall
  have hfront := List.append_cancel_left hall
  rw [hparts] at hfront
  exact hrest hbuf (List.append_right_eq_self.mp hfront.symm)

/-! ## Frames -/

theorem emits_amqpTcpSocketWritev (pieces : List Bytes) :
    Emits Socket.sent (amqpTcpSocketWritev pieces) pieces.flatten := by
  have heach := Emits.each (l := pieces) (g := id) fun buf _ => emits_amqpTcpSocketSendInner buf
  rwa [List.flatMap_id] at heach

theorem early_amqpTcpSocketWritev (front : List Bytes) {last : Bytes} (hlast : last ≠ []) :
    Early Socket.sent (amqpTcpSocketWritev (front ++ [last])) (front ++ [last]).flatten := by
  induction front with
  | nil => exact (early_amqpTcpSocketSendInner hlast).andThen_done
  | cons piece rest ih =>
      rw [List.cons_append, List.flatten_cons]
      apply (emits_amqpTcpSocketSendInner piece).early_andThen _ ih
      rw [List.flatten_append, List.flatten_singleton]
      exact List.append_ne_nil_of_right_ne_nil _ hlast

theorem encodePayload_ok {outbound b encoded : Bytes} {fixed : Nat} {w : AmqpEncoder} (hw : Encodes w b)
    (h : encodePayload outbound fixed w = .ok encoded) :
    encoded = b ∧ (b ≠ [] → headerSize + fixed + b.length + footerSize ≤ outbound.length) := by
  by_cases hroom : headerSize + fixed + b.length + footerSize ≤ outbound.length
  · rw [encodePayload_encodes hw hroom] at h
    cases h
    exact ⟨rfl, fun _ => hroom⟩
  · unfold encodePayload at h
    split at h
    · cases h
    · dsimp only at h
      have hshort : ((outbound.drop (headerSize + fixed)).take
          (outbound.length - headerSize - fixed - footerSize)).length < 0 + b.length := by
        rw [List.length_take, List.length_drop]
        omega
      rcases hw.full _ 0 hshort with ⟨e, he⟩ | ⟨hnone, _⟩
      · rw [he] at h
        cases h
      · rw [hnone] at hshort
        exact absurd hshort (Nat.not_lt_zero _)

theorem amqpSendFrame_pieces {outbound : Bytes} {f : Frame} {pieces : List Bytes}
    (hproperties : ∀ bodySize p, f.payload = .header bodySize p → p.Sized)
    (h : amqpSendFrame outbound f = .ok pieces) :
    pieces.flatten = f.octets ∧ ∃ front last, pieces = front ++ [last] ∧ last ≠ [] := by
  have hwhole : ∀ frameType channel payload, wholeFrame frameType channel payload ≠ [] := by
    intro frameType channel payload hnil
    have hlength := wholeFrame_length frameType channel payload
    rw [hnil] at hlength
    cases hlength
  unfold amqpSendFrame at h
  split at h
  · cases h
  · unfold Frame.octets
    cases hpayload : f.payload with
    | method m =>
        simp only [hpayload] at h
        cases hencoded : encodePayload outbound 4 (amqpEncodeMethod m) with
        | error fault =>
            rw [hencoded] at h
            cases h
        | ok encoded =>
            rw [hencoded] at h
            cases h
            rw [(encodePayload_ok (encodes_amqpEncodeMethod m) hencoded).1, List.flatten_singleton]
            exact ⟨rfl, [], _, rfl, hwhole _ _ _⟩
    | header bodySize properties =>
        simp only [hpayload] at h
        cases hencoded : encodePayload outbound 12 (amqpEncodeProperties properties) with
        | error fault =>
            rw [hencoded] at h
            cases h
        | ok encoded =>
            rw [hencoded] at h
            cases h
            have hwrites := encodes_amqpEncodeProperties (hproperties bodySize properties hpayload)
            rw [(encodePayload_ok hwrites hencoded).1, List.flatten_singleton]
            exact ⟨rfl, [], _, rfl, hwhole _ _ _⟩
    | body fragment =>
        simp only [hpayload] at h
        cases h
        refine ⟨?_, [_, fragment], [amqpFrameEnd], rfl, by decide⟩
        simp [FramePayload.frameType, FramePayload.octets, wholeFrame]
    | heartbeat =>
        simp only [hpayload] at h
        split at h
        · cases h
        · cases h
          exact ⟨List.flatten_singleton, [], _, rfl, hwhole _ _ _⟩
    | protocolHeader a b c d =>
        simp only [hpayload] at h
        cases h

theorem Frame.octets_ne_nil (f : Frame) : f.octets ≠ [] := by
  intro hnil
  have hlength := f.octets_length
  rw [hnil] at hlength
  cases hlength

section

variable (outbound : Bytes) {f : Frame} (hproperties : ∀ bodySize p, f.payload = .header bodySize p → p.Sized)

include hproperties

/-- Of a frame goes out all, or a part of it and then nothing more. -/
theorem emits_amqpSendFrameOn : Emits Socket.sent (amqpSendFrameOn outbound f) f.octets := by
  unfold amqpSendFrameOn
  cases hpieces : amqpSendFrame outbound f with
  | error fault => exact emits_fail fault _
  | ok pieces =>
      rw [← (amqpSendFrame_pieces hproperties hpieces).1]
      exact emits_amqpTcpSocketWritev pieces

theorem early_amqpSendFrameOn : Early Socket.sent (amqpSendFrameOn outbound f) f.octets := by
  unfold amqpSendFrameOn
  cases hpieces : amqpSendFrame outbound f with
  | error fault => exact early_fail fault f.octets_ne_nil
  | ok pieces =>
      obtain ⟨hoctets, front, last, hparts, hlast⟩ := amqpSendFrame_pieces hproperties hpieces
      rw [← hoctets, hparts]
      exact early_amqpTcpSocketWritev front hlast

end

end Neb2Amqp
