import Neb2Amqp.Librabbitmq.Clone
import Neb2Amqp.Librabbitmq.Socket
import Neb2Amqp.Librabbitmq.Waiting

/-!
# Requests and replies

`amqp_simple_rpc`, `amqp_simple_wait_method` and `amqp_simple_wait_frame_on_channel` of
amqp_socket.c. A frame that is not the one that is waited for goes to the end of the queue. What
is left of the receiving side of a connection after a failure is not followed.
-/

namespace Neb2Amqp

open CLib

variable (fresh : ∀ c : PropertyClass, Members c.layout)

def amqpQueueFrame (frame : Frame) (r : Receiver) : Receiver := { r with queue := r.queue ++ [frame] }

/-- `amqp_simple_wait_frame_noblock` without a timeout. -/
def amqpSimpleWaitFrame (r : Receiver) : Except WireFault (Frame × Receiver) :=
  match r.queue with
  | frame :: queue => .ok (frame, { r with queue := queue })
  | [] => waitFrameInner fresh r

/-- The octets that can still come. Every frame takes some, so that they bound the rounds of a loop. -/
def Receiver.octets (r : Receiver) : Nat := (r.buffered :: flow r.answers).flatten.length

/-- The search in the queue. The frames in front of the one that is found are unlinked with it. -/
def takeQueued (channel : UInt16) : List Frame → Option (Frame × List Frame)
  | [] => none
  | frame :: rest => if channel = frame.channel then some (frame, rest) else takeQueued channel rest

def waitOnChannel (channel : UInt16) : Nat → Receiver → Except WireFault (Frame × Receiver)
  | 0, _ => .error .unfinished
  | rounds + 1, r =>
      match waitFrameInner fresh r with
      | .error fault => .error fault
      | .ok (frame, r) =>
          if channel = frame.channel then .ok (frame, r)
          else waitOnChannel channel rounds (amqpQueueFrame frame r)

def amqpSimpleWaitFrameOnChannel (channel : UInt16) (r : Receiver) : Except WireFault (Frame × Receiver) :=
  match takeQueued channel r.queue with
  | some (frame, queue) => .ok (frame, { r with queue := queue })
  | none => waitOnChannel fresh channel (r.octets + 1) r

/-- A frame that is not the one expected closes the socket. -/
def amqpSimpleWaitMethod (expectedChannel : UInt16) (expectedMethod : Method) (r : Receiver) :
    Except WireFault (Args expectedMethod.layout × Receiver) :=
  match amqpSimpleWaitFrame fresh r with
  | .error fault => .error fault
  | .ok (frame, r) =>
      match frame.payload with
      | .method m =>
          if h : frame.channel = expectedChannel ∧ m.method = expectedMethod then .ok (h.2 ▸ m.args, r)
          else .error (.status .wrongMethod)
      | _ => .error (.status .wrongMethod)

def amqpSendMethod (outbound : Bytes) (channel : UInt16) (m : MethodCall) : Attempt Socket WireFault :=
  amqpSendFrameOn outbound ⟨channel, .method m⟩

/-- The method of a frame that directly affects a request: a reply or a channel.close on its
channel, or a connection.close on channel 0. -/
def affects (channel : UInt16) (replies : List Method) (frame : Frame) : Option MethodCall :=
  match frame.payload with
  | .method m =>
      if frame.channel = channel ∧ (m.method ∈ replies ∨ m.method = .channelClose) ∨
          frame.channel = 0 ∧ m.method = .connectionClose then some m
      else none
  | _ => none

/-- The loop at `retry:`. -/
def awaitReply (channel : UInt16) (replies : List Method) : Nat → Receiver →
    Except WireFault (MethodCall × Receiver)
  | 0, _ => .error .unfinished
  | rounds + 1, r =>
      match waitFrameInner fresh r with
      | .error fault => .error fault
      | .ok (frame, r) =>
          match affects channel replies frame with
          | some m => .ok (m, r)
          | none => awaitReply channel replies rounds (amqpQueueFrame frame r)

/-- `amqp_rpc_reply_t`. -/
inductive RpcReply
  | normal (m : MethodCall) (r : Receiver)
  | serverException (m : MethodCall) (r : Receiver)
  | libraryException (fault : WireFault)

def amqpSimpleRpc (outbound : Bytes) (channel : UInt16) (request : MethodCall) (replies : List Method)
    (r : Receiver) (s : Socket) : RpcReply × Socket :=
  match amqpSendMethod outbound channel request s with
  | (.error fault, s) => (.libraryException fault, s)
  | (.ok (), s) =>
      match awaitReply fresh channel replies (r.octets + 1) r with
      | .error fault => (.libraryException fault, s)
      | .ok (m, r) => (if m.method ∈ replies then .normal m r else .serverException m r, s)

/-! ## How many frames can come -/

theorem consumeFrames_length (rounds : Nat) {s : Inbound} (data : Bytes) (h : s.Waiting) :
    (consumeFrames fresh rounds s data).1.length ≤ data.length ∧
      ∀ s', (consumeFrames fresh rounds s data).2 = .ok s' → s'.Waiting := by
  induction rounds generalizing s data with
  | zero =>
      cases data with
      | nil =>
          refine ⟨Nat.zero_le _, ?_⟩
          intro s' hs
          cases hs
          exact h
      | cons u rest =>
          refine ⟨Nat.zero_le _, ?_⟩
          intro s' hs
          cases hs
  | succ rounds ih =>
      cases data with
      | nil =>
          refine ⟨Nat.zero_le _, ?_⟩
          intro s' hs
          cases hs
          exact h
      | cons u rest =>
          unfold consumeFrames
          cases hcall : amqpHandleInput fresh s (u :: rest) with
          | error fault =>
              refine ⟨Nat.zero_le _, ?_⟩
              intro s' hs
              cases hs
          | ok result =>
              obtain ⟨bytesConsumed, frame, s'⟩ := result
              obtain ⟨hpos, hwaiting⟩ := amqpHandleInput_waiting fresh h (List.cons_ne_nil u rest) hcall
              obtain ⟨hlength, hlast⟩ := @ih s' ((u :: rest).drop bytesConsumed) hwaiting
              refine ⟨?_, hlast⟩
              have hone : frame.toList.length ≤ 1 := by
                cases frame <;> simp
              rw [List.length_drop, List.length_cons] at hlength
              rw [List.length_append, List.length_cons]
              omega

theorem receiveChunks_length {s : Inbound} (h : s.Waiting) (chunks : List Bytes) :
    (receiveChunks fresh s chunks).1.length ≤ chunks.flatten.length := by
  induction chunks generalizing s with
  | nil => exact Nat.le_refl 0
  | cons chunk chunks ih =>
      obtain ⟨hlength, hlast⟩ := consumeFrames_length fresh chunk.length chunk h
      rw [List.flatten_cons, List.length_append]
      unfold receiveChunks
      cases hcall : consumeFrames fresh chunk.length s chunk with
      | mk frames result =>
          rw [hcall] at hlength hlast
          cases result with
          | error fault => exact Nat.le_trans hlength (Nat.le_add_right _ _)
          | ok s' =>
              have hrest := ih (hlast s' rfl)
              rw [List.length_append]
              exact Nat.add_le_add hlength hrest

theorem Receiver.frames_length {r : Receiver} (h : r.inbound.Waiting) : (r.frames fresh).length ≤ r.octets :=
  Nat.le_trans (List.length_filter_le _ _) (receiveChunks_length fresh h _)

theorem Receiver.frames_queue (r : Receiver) (queue : List Frame) :
    ({ r with queue := queue } : Receiver).frames fresh = r.frames fresh := rfl

/-! ## The loops on the frames to come -/

section

variable {r : Receiver} (h : r.inbound.Waiting)

include h

/-- The first frame that affects the request ends the wait. Those before it are queued in order,
and those behind it are still to come. -/
theorem awaitReply_found {channel : UInt16} {replies : List Method} {rounds : Nat} {before after : List Frame}
    {frame : Frame} {m : MethodCall} (hframes : r.frames fresh = before ++ frame :: after)
    (hbefore : ∀ f ∈ before, affects channel replies f = none) (hframe : affects channel replies frame = some m)
    (hrounds : before.length < rounds) :
    ∃ r', awaitReply fresh channel replies rounds r = .ok (m, r') ∧ r'.frames fresh = after ∧
      r'.queue = r.queue ++ before ∧ r'.inbound.Waiting := by
  induction rounds generalizing r before with
  | zero => cases hrounds
  | succ rounds ih =>
      unfold awaitReply
      cases before with
      | nil =>
          obtain ⟨r', hwait, hrest, hqueue, hwaiting⟩ := waitFrameInner_cons fresh h hframes
          simp only [hwait, hframe]
          exact ⟨r', rfl, hrest, by rw [hqueue, List.append_nil], hwaiting⟩
      | cons f before =>
          obtain ⟨r', hwait, hrest, hqueue, hwaiting⟩ := waitFrameInner_cons fresh h hframes
          have hf := hbefore f List.mem_cons_self
          obtain ⟨last, hreply, hlater, hkept, hlast⟩ := @ih (amqpQueueFrame f r') hwaiting
            before hrest (fun g hg => hbefore g (List.mem_cons_of_mem f hg))
            (Nat.lt_of_succ_lt_succ hrounds)
          simp only [hwait, hf]
          refine ⟨last, hreply, hlater, ?_, hlast⟩
          rw [hkept]
          simp [amqpQueueFrame, hqueue]

/-- Without such a frame the wait fails, and not because of its bound. -/
theorem awaitReply_none {channel : UInt16} {replies : List Method} (rounds : Nat)
    (hframes : ∀ f ∈ r.frames fresh, affects channel replies f = none) :
    ∃ fault, awaitReply fresh channel replies rounds r = .error fault := by
  induction rounds generalizing r with
  | zero => exact ⟨_, rfl⟩
  | succ rounds ih =>
      unfold awaitReply
      cases hall : r.frames fresh with
      | nil =>
          obtain ⟨fault, hwait⟩ := waitFrameInner_nil fresh h hall
          exact ⟨fault, by rw [hwait]⟩
      | cons f rest =>
          obtain ⟨r', hwait, hrest, hqueue, hwaiting⟩ := waitFrameInner_cons fresh h hall
          rw [hall] at hframes
          have hf := hframes f List.mem_cons_self
          simp only [hwait, hf]
          apply @ih (amqpQueueFrame f r') hwaiting
          intro g hg
          apply hframes g
          have hsame : (amqpQueueFrame f r').frames fresh = rest := hrest
          rw [hsame] at hg
          exact List.mem_cons_of_mem f hg

end

/-! ## A request -/

/-- The method `m` is the first among the frames to come that affects the request. The frames before
it are queued, behind those that were, and the others are still to come. -/
structure Receiver.Answered (channel : UInt16) (replies : List Method) (r : Receiver) (m : MethodCall)
    (r' : Receiver) : Prop where
  frames : ∃ before frame, r.frames fresh = before ++ frame :: r'.frames fresh ∧
    (∀ f ∈ before, affects channel replies f = none) ∧ affects channel replies frame = some m ∧
      r'.queue = r.queue ++ before
  waiting : r'.inbound.Waiting

theorem awaitReply_meets (channel : UInt16) (replies : List Method) {r : Receiver} (h : r.inbound.Waiting) :
    match awaitReply fresh channel replies (r.octets + 1) r with
    | .ok (m, r') => r.Answered fresh channel replies m r'
    | .error _ => ∀ f ∈ r.frames fresh, affects channel replies f = none := by
  by_cases hnone : ∀ f ∈ r.frames fresh, affects channel replies f = none
  · obtain ⟨fault, hfault⟩ := awaitReply_none fresh h (r.octets + 1) hnone
    rw [hfault]
    exact hnone
  · cases hfind : (r.frames fresh).find? fun f => (affects channel replies f).isSome with
    | none =>
        have hall := List.find?_eq_none.mp hfind
        exact absurd (fun f hf => Option.not_isSome_iff_eq_none.mp (hall f hf)) hnone
    | some frame =>
        obtain ⟨hsome, before, after, hframes, hbefore⟩ := List.find?_eq_some_iff_append.mp hfind
        obtain ⟨m, hm⟩ := Option.isSome_iff_exists.mp hsome
        have hquiet : ∀ f ∈ before, affects channel replies f = none := by
          intro f hf
          have hf := hbefore f hf
          rwa [Bool.not_eq_true', Option.isSome_eq_false_iff, Option.isNone_iff_eq_none] at hf
        have hbound := r.frames_length fresh h
        rw [hframes, List.length_append] at hbound
        obtain ⟨r', hreply, hafter, hqueue, hwaiting⟩ :=
          awaitReply_found fresh h hframes hquiet hm (show before.length < r.octets + 1 by omega)
        rw [hreply]
        exact ⟨⟨before, frame, by rw [hafter]; exact hframes, hquiet, hm, hqueue⟩, hwaiting⟩

theorem affects_method {channel : UInt16} {replies : List Method} {frame : Frame} {m : MethodCall}
    (h : affects channel replies frame = some m) :
    m.method ∈ replies ∨ m.method = .channelClose ∨ m.method = .connectionClose := by
  unfold affects at h
  split at h
  · split at h
    · rename_i hcases
      cases h
      rcases hcases with ⟨_, hreply | hclose⟩ | ⟨_, hclose⟩
      · exact .inl hreply
      · exact .inr (.inl hclose)
      · exact .inr (.inr hclose)
    · cases h
  · cases h

/-- What a reply says about the frames to come. Without one the request was not sent, or none of them
affects it. -/
inductive RpcReply.Meets (channel : UInt16) (replies : List Method) (sent : Except WireFault Unit)
    (r : Receiver) : RpcReply → Prop
  | normal {m : MethodCall} {r' : Receiver} (hreply : m.method ∈ replies)
      (hanswered : r.Answered fresh channel replies m r') : Meets channel replies sent r (.normal m r')
  | closed {m : MethodCall} {r' : Receiver} (hclose : m.method = .channelClose ∨ m.method = .connectionClose)
      (hanswered : r.Answered fresh channel replies m r') : Meets channel replies sent r (.serverException m r')
  | notSent {fault : WireFault} (hsent : sent = .error fault) :
      Meets channel replies sent r (.libraryException fault)
  | notAnswered {fault : WireFault} (hnone : ∀ f ∈ r.frames fresh, affects channel replies f = none) :
      Meets channel replies sent r (.libraryException fault)

/-- A request that was sent is answered by the first frame that affects it, if there is one, and no
other frame is lost or changes its place. -/
theorem amqpSimpleRpc_meets {outbound : Bytes} {channel : UInt16} {request : MethodCall}
    {replies : List Method} {r : Receiver} {s : Socket} (h : r.inbound.Waiting) :
    (amqpSimpleRpc fresh outbound channel request replies r s).1.Meets fresh channel replies
      (amqpSendMethod outbound channel request s).1 r := by
  unfold amqpSimpleRpc
  cases hsend : amqpSendMethod outbound channel request s with
  | mk sent s' =>
      cases sent with
      | error fault => exact .notSent rfl
      | ok =>
          have hmeets := awaitReply_meets fresh channel replies h
          cases hreply : awaitReply fresh channel replies (r.octets + 1) r with
          | error fault =>
              rw [hreply] at hmeets
              exact .notAnswered hmeets
          | ok result =>
              obtain ⟨m, r'⟩ := result
              rw [hreply] at hmeets
              obtain ⟨⟨before, frame, hframes, hbefore, hframe, hqueue⟩, hwaiting⟩ := hmeets
              have hanswered : r.Answered fresh channel replies m r' :=
                ⟨⟨before, frame, hframes, hbefore, hframe, hqueue⟩, hwaiting⟩
              dsimp only
              by_cases hin : m.method ∈ replies
              · rw [if_pos hin]
                exact .normal hin hanswered
              · rw [if_neg hin]
                exact .closed ((affects_method hframe).resolve_left hin) hanswered

def openRequest : MethodCall := ⟨.channelOpen, ([], ())⟩

/-- A piece of a body, and then channel.open-ok. -/
def openAnswer : Receiver :=
  ⟨⟨.idle, List.replicate 8 0, none, 0, headerSize⟩,
    Frame.octets ⟨1, .body [7]⟩ ++ Frame.octets ⟨1, .method ⟨.channelOpenOk, ([], ())⟩⟩, [], []⟩

theorem amqpSimpleRpc_meets_open :
    (amqpSimpleRpc (fun c => zeroMembers c.layout) (List.replicate 64 0) 1 openRequest [.channelOpenOk] openAnswer
      ⟨[.took 100], []⟩).1.Meets (fun c => zeroMembers c.layout) 1 [.channelOpenOk]
        (amqpSendMethod (List.replicate 64 0) 1 openRequest ⟨[.took 100], []⟩).1 openAnswer := by
  have hwaiting : openAnswer.inbound.Waiting := show 0 < headerSize by decide
  exact amqpSimpleRpc_meets (fun c => zeroMembers c.layout) hwaiting

end Neb2Amqp
