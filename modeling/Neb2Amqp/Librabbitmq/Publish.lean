import Neb2Amqp.Librabbitmq.Socket

/-!
# Publishing

`amqp_basic_publish` of amqp_api.c, on a connection without heartbeats: a method, a content
header and as many pieces of the body as it takes. It either hands over all octets of these
frames, or fails with some of them missing.
-/

namespace Neb2Amqp

open CLib

/-- What `amqp_tune_connection` leaves for sending: the buffer is as long as a frame may be. -/
structure Outbound where
  frameMax : Nat
  buffer : Bytes
  hbuffer : buffer.length = frameMax

/-- `usable_body_payload_size`, converted from a signed difference. -/
def Outbound.usable (o : Outbound) : Nat :=
  if headerSize + footerSize ≤ o.frameMax then o.frameMax - (headerSize + footerSize)
  else 2 ^ 64 + o.frameMax - (headerSize + footerSize)

/-- `amqp_basic_publish_t`. -/
def publishMethod (exchange routingKey : Bytes) (mandatory immediate : Bool) : MethodCall :=
  ⟨.basicPublish, ((0 : UInt16), exchange, routingKey, ⟨[mandatory, immediate], rfl⟩, ())⟩

/-- The loop over the body, with the rounds it may still make. Where nothing of a body is usable
in a frame it goes on forever. -/
def sendBody (o : Outbound) (channel : UInt16) : Nat → Bytes → Attempt Socket WireFault
  | _, [] => .done
  | 0, _ :: _ => .fail .unfinished
  | rounds + 1, body =>
      (amqpSendFrameOn o.buffer ⟨channel, .body (body.take o.usable)⟩).andThen
        (sendBody o channel rounds (body.drop o.usable))

section

variable (o : Outbound) (channel : UInt16) (exchange routingKey : Bytes) (mandatory immediate : Bool)
  (properties : Properties) (body : Bytes)

def amqpBasicPublishOn : Attempt Socket WireFault :=
  (amqpSendFrameOn o.buffer ⟨channel, .method (publishMethod exchange routingKey mandatory immediate)⟩).andThen
    ((amqpSendFrameOn o.buffer ⟨channel, .header (.ofNat body.length) properties⟩).andThen
      (sendBody o channel body.length body))

/-! ## The frames of a message -/

/-- The pieces a body goes out in. -/
def fragments (usable : Nat) : Nat → Bytes → List Bytes
  | _, [] => []
  | 0, _ :: _ => []
  | rounds + 1, body => body.take usable :: fragments usable rounds (body.drop usable)

def publishFrames : List Frame :=
  ⟨channel, .method (publishMethod exchange routingKey mandatory immediate)⟩ ::
    ⟨channel, .header (.ofNat body.length) properties⟩ ::
      (fragments o.usable body.length body).map fun fragment => ⟨channel, .body fragment⟩

end

theorem fragments_flatten {usable rounds : Nat} {body : Bytes} (husable : 0 < usable)
    (hrounds : body.length ≤ rounds) : (fragments usable rounds body).flatten = body := by
  induction rounds generalizing body with
  | zero =>
      rw [List.length_eq_zero_iff.mp (Nat.le_zero.mp hrounds)]
      rfl
  | succ rounds ih =>
      cases body with
      | nil => rfl
      | cons u rest =>
          have hless : ((u :: rest).drop usable).length ≤ rounds := by
            rw [List.length_drop]
            omega
          rw [fragments, List.flatten_cons, ih hless, List.take_append_drop]
          intro h
          cases h

theorem mem_fragments {usable rounds : Nat} {body fragment : Bytes} (husable : 0 < usable)
    (h : fragment ∈ fragments usable rounds body) : fragment ≠ [] ∧ fragment.length ≤ usable := by
  induction rounds generalizing body with
  | zero =>
      cases body with
      | nil => cases h
      | cons u rest => cases h
  | succ rounds ih =>
      cases body with
      | nil => cases h
      | cons u rest =>
          rcases List.mem_cons.mp h with heq | hlater
          · rw [heq]
            constructor
            · intro hnil
              have hlength := congrArg List.length hnil
              rw [List.length_take, List.length_cons, List.length_nil] at hlength
              omega
            · rw [List.length_take]
              omega
          · exact ih hlater

/-! ## What goes out -/

theorem emits_sendBody (o : Outbound) (channel : UInt16) (rounds : Nat) (body : Bytes) :
    Emits Socket.sent (sendBody o channel rounds body)
      ((fragments o.usable rounds body).flatMap fun fragment => Frame.octets ⟨channel, .body fragment⟩) := by
  induction rounds generalizing body with
  | zero =>
      cases body with
      | nil => exact emits_done
      | cons u rest => exact emits_fail _ _
  | succ rounds ih =>
      cases body with
      | nil => exact emits_done
      | cons u rest => exact (emits_amqpSendFrameOn o.buffer fun _ _ h => by cases h).andThen (ih _)

theorem early_sendBody {o : Outbound} (husable : 0 < o.usable) (channel : UInt16) {rounds : Nat}
    {body : Bytes} (hrounds : body.length ≤ rounds) :
    Early Socket.sent (sendBody o channel rounds body)
      ((fragments o.usable rounds body).flatMap fun fragment => Frame.octets ⟨channel, .body fragment⟩) := by
  induction rounds generalizing body with
  | zero =>
      rw [List.length_eq_zero_iff.mp (Nat.le_zero.mp hrounds)]
      exact early_done
  | succ rounds ih =>
      cases body with
      | nil => exact early_done
      | cons u rest =>
          have hless : ((u :: rest).drop o.usable).length ≤ rounds := by
            rw [List.length_drop]
            omega
          have hframe : ∀ bodySize p, (FramePayload.body ((u :: rest).take o.usable)) = .header bodySize p →
              p.Sized := by
            intro bodySize p h
            cases h
          have hrest := ih hless
          cases hbehind : (u :: rest).drop o.usable with
          | nil =>
              unfold sendBody fragments
              rw [hbehind]
              have hearly := (early_amqpSendFrameOn o.buffer (f := ⟨channel, _⟩) hframe).andThen_done
              cases rounds <;> exact hearly
          | cons v more =>
              unfold sendBody fragments
              rw [List.flatMap_cons]
              apply (emits_amqpSendFrameOn o.buffer hframe).early_andThen _ hrest
              rw [hbehind]
              cases rounds with
              | zero =>
                  rw [hbehind] at hless
                  cases hless
              | succ rounds =>
                  unfold fragments
                  rw [List.flatMap_cons]
                  exact List.append_ne_nil_of_left_ne_nil (Frame.octets_ne_nil _) _

section

variable {o : Outbound} {channel : UInt16} {exchange routingKey : Bytes} {mandatory immediate : Bool}
  {properties : Properties} {body : Bytes} (hproperties : properties.Sized)

include hproperties

/-- Whatever `send` does, the octets of the frames go out in order, and all of them if the function
returns `AMQP_STATUS_OK`. -/
theorem emits_amqpBasicPublishOn :
    Emits Socket.sent (amqpBasicPublishOn o channel exchange routingKey mandatory immediate properties body)
      ((publishFrames o channel exchange routingKey mandatory immediate properties body).flatMap
        Frame.octets) := by
  unfold publishFrames
  rw [List.flatMap_cons, List.flatMap_cons, List.flatMap_map]
  apply (emits_amqpSendFrameOn o.buffer fun _ _ h => by cases h).andThen
  apply (emits_amqpSendFrameOn o.buffer fun _ _ h => by cases h; exact hproperties).andThen
  exact emits_sendBody o channel body.length body

/-- If it returns an error, some of them are missing. -/
theorem early_amqpBasicPublishOn (husable : 0 < o.usable) :
    Early Socket.sent (amqpBasicPublishOn o channel exchange routingKey mandatory immediate properties body)
      ((publishFrames o channel exchange routingKey mandatory immediate properties body).flatMap
        Frame.octets) := by
  have hmethod : Emits Socket.sent (amqpSendFrameOn o.buffer
      ⟨channel, .method (publishMethod exchange routingKey mandatory immediate)⟩) _ :=
    emits_amqpSendFrameOn o.buffer fun _ _ h => by cases h
  have hheader : ∀ bodySize p, (FramePayload.header (.ofNat body.length) properties) = .header bodySize p →
      p.Sized := by
    intro bodySize p h
    cases h
    exact hproperties
  unfold publishFrames
  rw [List.flatMap_cons, List.flatMap_cons, List.flatMap_map]
  apply hmethod.early_andThen
  · exact List.append_ne_nil_of_left_ne_nil (Frame.octets_ne_nil _) _
  · cases body with
    | nil => exact (early_amqpSendFrameOn o.buffer (f := ⟨channel, _⟩) hheader).andThen_done
    | cons u rest =>
        apply (emits_amqpSendFrameOn o.buffer hheader).early_andThen
        · rw [List.length_cons, fragments, List.flatMap_cons]
          · exact List.append_ne_nil_of_left_ne_nil (Frame.octets_ne_nil _) _
          · intro h
            cases h
        · exact early_sendBody husable channel (Nat.le_refl _)

end

end Neb2Amqp
