import Neb2Amqp.Librabbitmq.Consumer
import Neb2Amqp.Librabbitmq.Peer

/-!
# Messages at a peer

What a peer that decodes with this library makes of the frames it gets: a basic.publish, and then the
message as `amqp_read_message` reads it. The frames of `amqp_basic_publish` are one publication there,
and those of a call that failed are none, as long as nothing follows them.
-/

namespace Neb2Amqp

open CLib

variable (fresh : ∀ c : PropertyClass, Members c.layout)

/-- A message and how it was published, the flags being `mandatory` and `immediate`. -/
structure Publication where
  exchange : Bytes
  routingKey : Bytes
  flags : List Bool
  message : AmqpMessage

/-- Waiting for a frame that has come already. -/
def nextFrame : List Frame → Except WireFault (Frame × List Frame)
  | [] => .error .unfinished
  | frame :: rest => .ok (frame, rest)

theorem takes_nextFrame : Takes nextFrame (fun _ => True) id where
  next := by
    intro s frame rest _ h
    cases h
    exact ⟨rest, rfl, rfl, trivial⟩
  taken := by
    intro s s' frame _ h
    cases s with
    | nil => cases h
    | cons f rest =>
        cases h
        exact ⟨rfl, trivial⟩

/-- The publications that a peer finds in a list of frames, up to the first that is not complete. It
reads the messages with `amqp_read_message`. -/
def publications : Nat → List Frame → List Publication
  | rounds + 1, ⟨_, .method ⟨.basicPublish, args⟩⟩ :: frames =>
      match amqpReadMessage nextFrame (frames.length + 1) frames with
      | .ok (message, rest) => ⟨args.2.1, args.2.2.1, args.2.2.2.1.1, message⟩ :: publications rounds rest
      | .error _ => []
  | _, _ => []

theorem publications_cons (rounds : Nat) (channel : UInt16) (exchange routingKey : Bytes)
    (mandatory immediate : Bool) (frames : List Frame) :
    publications (rounds + 1)
        (⟨channel, .method (publishMethod exchange routingKey mandatory immediate)⟩ :: frames) =
      match amqpReadMessage nextFrame (frames.length + 1) frames with
      | .ok (message, rest) => ⟨exchange, routingKey, [mandatory, immediate], message⟩ :: publications rounds rest
      | .error _ => [] := rfl

/-- The octets of a body that a frame holds. -/
def Frame.bodyOctets : Frame → Bytes
  | ⟨_, .body fragment⟩ => fragment
  | _ => []

theorem flatMap_bodyOctets (channel : UInt16) (pieces : List Bytes) :
    (pieces.map fun p => (⟨channel, .body p⟩ : Frame)).flatMap Frame.bodyOctets = pieces.flatten := by
  rw [List.flatMap_map]
  exact List.flatMap_id

theorem flatten_take_lt {pieces : List Bytes} (h : ∀ p ∈ pieces, p ≠ []) {n : Nat} (hn : n < pieces.length) :
    (pieces.take n).flatten.length < pieces.flatten.length := by
  have hsplit := congrArg (fun l => l.flatten.length) (List.take_append_drop n pieces)
  rw [List.drop_eq_getElem_cons hn] at hsplit
  simp only [List.flatten_append, List.flatten_cons, List.length_append] at hsplit
  have hpos := List.length_pos_iff.mpr (h _ (List.getElem_mem hn))
  omega

theorem amqpReadMessage_short (channel : UInt16) {bodySize : UInt64} (properties : Properties)
    {pieces : List Bytes} (hshort : pieces.flatten.length < bodySize.toNat) (rounds : Nat) :
    ∃ failure, amqpReadMessage nextFrame rounds
      (⟨channel, .header bodySize properties⟩ :: pieces.map fun p => ⟨channel, .body p⟩) = .error failure := by
  cases hread : amqpReadMessage nextFrame rounds
      (⟨channel, .header bodySize properties⟩ :: pieces.map fun p => ⟨channel, .body p⟩) with
  | error failure => exact ⟨failure, rfl⟩
  | ok result =>
      obtain ⟨message, rest⟩ := result
      obtain ⟨_, size, _, bodies, hframes, _, hmessage, hlength, _⟩ :=
        amqpReadMessage_ok takes_nextFrame trivial hread
      obtain ⟨hheader, hlater⟩ := List.cons.inj hframes
      cases hheader
      have hoctets := congrArg (List.flatMap Frame.bodyOctets) hlater
      rw [flatMap_bodyOctets, List.flatMap_append, List.flatMap_map] at hoctets
      have hsum := congrArg List.length hoctets
      rw [List.length_append] at hsum
      rw [hmessage, List.flatten_eq_flatMap, List.flatMap_map] at hlength
      have hsame : (bodies.flatMap fun b => Frame.bodyOctets ⟨b.1, .body b.2⟩) =
          bodies.flatMap fun b => id b.2 := rfl
      rw [hsame, hlength] at hsum
      omega

/-- Properties of messages whose tables have no empty key. -/
def basicProperties (flags : UInt32) (members : Members PropertyClass.basic.layout) : Properties :=
  ⟨.basic, flags, members⟩

/-- What is read of such properties. -/
def readProperties (flags : UInt32) (members : Members PropertyClass.basic.layout) : Properties :=
  ⟨.basic, flags, received flags PropertyClass.basic.layout members (zeroMembers PropertyClass.basic.layout)⟩

section

variable {o : Outbound} {channel : UInt16} {exchange routingKey : Bytes} {mandatory immediate : Bool}
  {flags : UInt32} {members : Members PropertyClass.basic.layout} {body : Bytes}
  (hpublishable : Publishable o exchange routingKey (basicProperties flags members))
  (hkeyed : membersKeyed flags PropertyClass.basic.layout members) (hbody : body.length < 2 ^ 64)

include hpublishable hbody

theorem publish_bodySize :
    (UInt64.ofNat body.length).toNat = (fragments o.usable body.length body).flatten.length := by
  rw [UInt64.toNat_ofNat_of_lt' hbody, fragments_flatten hpublishable.usable.2 (Nat.le_refl _)]

include hkeyed

/-- The frames of a call come out as one publication, whatever follows them. -/
theorem publications_publish (rounds : Nat) (rest : List Frame) :
    publications (rounds + 1)
        ((publishFrames o channel exchange routingKey mandatory immediate (basicProperties flags members)
          body).map (Frame.arrived fresh) ++ rest) =
      ⟨exchange, routingKey, [mandatory, immediate], readProperties flags members, body⟩ ::
        publications rounds rest := by
  have husable := hpublishable.usable.2
  have hpieces : ∀ p ∈ fragments o.usable body.length body, p ≠ [] := fun p hp => (mem_fragments husable hp).1
  let later : List Frame :=
    ⟨channel, .header (.ofNat body.length) ((basicProperties flags members).arrived fresh)⟩ ::
    (((fragments o.usable body.length body).map fun p => ⟨channel, .body p⟩) ++ rest)
  have hframes : (publishFrames o channel exchange routingKey mandatory immediate (basicProperties flags members)
      body).map (Frame.arrived fresh) ++ rest =
        ⟨channel, .method (publishMethod exchange routingKey mandatory immediate)⟩ :: later := by
    simp [publishFrames, later, Frame.arrived, FramePayload.arrived]
  have hrounds : (fragments o.usable body.length body).length < later.length + 1 := by
    simp only [later, List.length_cons, List.length_append, List.length_map]
    omega
  obtain ⟨s', hread, hs', _⟩ := amqpReadMessage_frames takes_nextFrame (s := later) trivial
    ((membersKeyed_received_iff (fresh .basic)).mpr hkeyed) (publish_bodySize hpublishable hbody) hpieces hrounds rfl
  rw [received_received, fragments_flatten husable (Nat.le_refl _)] at hread
  have hrest : s' = rest := hs'
  rw [hframes, publications_cons, hread, hrest]
  rfl

omit hkeyed in
/-- A message that does not come to its end is no publication. -/
theorem publications_part (rounds : Nat) {n : Nat}
    (hpart : n < (publishFrames o channel exchange routingKey mandatory immediate (basicProperties flags members)
      body).length) :
    publications rounds (((publishFrames o channel exchange routingKey mandatory immediate
      (basicProperties flags members) body).take n).map (Frame.arrived fresh)) = [] := by
  have husable := hpublishable.usable.2
  have hsize := publish_bodySize hpublishable hbody
  have hpieces : ∀ p ∈ fragments o.usable body.length body, p ≠ [] := fun p hp => (mem_fragments husable hp).1
  unfold publishFrames at hpart ⊢
  generalize fragments o.usable body.length body = pieces at hpart hsize hpieces ⊢
  rw [List.length_cons, List.length_cons, List.length_map] at hpart
  cases rounds with
  | zero => rfl
  | succ rounds =>
      cases n with
      | zero => rfl
      | succ n =>
          cases n with
          | zero => exact publications_cons rounds channel exchange routingKey mandatory immediate []
          | succ n =>
              have hshort : (pieces.take n).flatten.length < (UInt64.ofNat body.length).toNat := by
                rw [hsize]
                exact flatten_take_lt hpieces (by omega)
              have hmissing := amqpReadMessage_short channel ((basicProperties flags members).arrived fresh) hshort
              rw [List.take_succ_cons, List.take_succ_cons, List.map_cons, List.map_cons, ← List.map_take,
                List.map_map]
              refine (publications_cons rounds channel exchange routingKey mandatory immediate _).trans ?_
              generalize hrounds : List.length _ + 1 = left
              obtain ⟨failure, hfailure⟩ := hmissing left
              have hread : amqpReadMessage nextFrame left
                  (Frame.arrived fresh ⟨channel, .header (.ofNat body.length) (basicProperties flags members)⟩ ::
                    (pieces.take n).map (Frame.arrived fresh ∘ fun p => ⟨channel, .body p⟩)) = .error failure :=
                hfailure
              rw [hread]

end

end Neb2Amqp
