import Neb2Amqp.Librabbitmq.NewConnection

/-!
# Waiting for a frame

`recv` and `wait_frame_inner` of amqp_tcp_socket.c and amqp_socket.c, without a timeout and
without heartbeats of its own, and the queue of frames that nobody asked for yet. A wait takes the
first frame off those that the octets still to come make, heartbeats left out.
-/

namespace Neb2Amqp

open CLib

/-- What `recv` answers. -/
inductive RecvAnswer
  | received (chunk : Bytes)
  | interrupted
  | failed

/-- The members of the connection that waiting uses: the octets that were received and not yet
looked at, the answers that `recv` is going to give, and the frames between `first_queued_frame`
and `last_queued_frame`. -/
structure Receiver where
  inbound : Inbound
  buffered : Bytes
  answers : List RecvAnswer
  queue : List Frame

def FramePayload.isHeartbeat : FramePayload → Bool
  | heartbeat => true
  | _ => false

variable (fresh : ∀ c : PropertyClass, Members c.layout)

/-- The loop in `wait_frame_inner` over the data in the buffer. Every call takes an octet. -/
def waitInBuffer : Nat → Inbound → Bytes → Except WireFault (Option Frame × Inbound × Bytes)
  | _, s, [] => .ok (none, s, [])
  | 0, _, _ :: _ => .error .unfinished
  | rounds + 1, s, data =>
      match amqpHandleInput fresh s data with
      | .error fault => .error fault
      | .ok (bytesConsumed, none, s) => waitInBuffer rounds s (data.drop bytesConsumed)
      | .ok (bytesConsumed, some frame, s) =>
          if frame.payload.isHeartbeat then waitInBuffer rounds s (data.drop bytesConsumed)
          else .ok (some frame, s, data.drop bytesConsumed)

/-- The outer loop. After an interruption `recv` is called again, and no octets are the end of the
connection. -/
def waitFrameLoop (queue : List Frame) :
    List RecvAnswer → Inbound → Bytes → Except WireFault (Frame × Receiver)
  | answers, s, data =>
      match waitInBuffer fresh data.length s data with
      | .error fault => .error fault
      | .ok (some frame, s, data) => .ok (frame, ⟨s, data, answers, queue⟩)
      | .ok (none, s, data) =>
          match answers with
          | [] => .error .unfinished
          | .interrupted :: answers => waitFrameLoop queue answers s data
          | .failed :: _ => .error (.status .socketError)
          | .received [] :: _ => .error (.status .connectionClosed)
          | .received (u :: chunk) :: answers => waitFrameLoop queue answers s (u :: chunk)

def waitFrameInner (r : Receiver) : Except WireFault (Frame × Receiver) :=
  waitFrameLoop fresh r.queue r.answers r.inbound r.buffered

/-! ## The frames to come -/

/-- The chunks that `recv` is going to hand out. -/
def flow : List RecvAnswer → List Bytes
  | [] => []
  | .interrupted :: answers => flow answers
  | .failed :: _ => []
  | .received [] :: _ => []
  | .received (u :: chunk) :: answers => (u :: chunk) :: flow answers

/-- Without the heartbeats. -/
def visible (frames : List Frame) : List Frame := frames.filter fun f => !f.payload.isHeartbeat

namespace Receiver

def run (r : Receiver) : List Frame × Except WireFault Inbound :=
  receiveChunks fresh r.inbound (r.buffered :: flow r.answers)

def frames (r : Receiver) : List Frame := visible (r.run fresh).1

end Receiver

theorem visible_append (a b : List Frame) : visible (a ++ b) = visible a ++ visible b :=
  List.filter_append a b

/-! ## The rounds of a loop -/

/-- There is room for an octet, so that a call takes one. -/
def Inbound.Waiting (s : Inbound) : Prop := s.inboundOffset < s.targetSize

theorem consumeData_waiting {s s' : Inbound} {data : Bytes} {n : Nat} (h : s.Waiting) (hdata : data ≠ [])
    (hok : consumeData s data = .ok (n, s')) : 0 < n := by
  have hpos := List.length_pos_iff.mpr hdata
  unfold Inbound.Waiting at h
  have hroom : s.room = s.targetSize - s.inboundOffset := if_pos (Nat.le_of_lt h)
  unfold consumeData at hok
  dsimp only at hok
  split at hok
  · cases hok
  · cases hok
    rw [hroom]
    omega

theorem finishFrame_waiting {n m : Nat} {s s' : Inbound} {frame : Option Frame}
    (hok : finishFrame fresh n s = .ok (m, frame, s')) : m = n ∧ s'.Waiting := by
  unfold finishFrame at hok
  cases hframe : decodeFrame fresh s.inboundBuffer s.targetSize with
  | error fault =>
      rw [hframe] at hok
      cases hok
  | ok frame' =>
      rw [hframe] at hok
      cases hok
      exact ⟨rfl, show 0 < headerSize by decide⟩

theorem takeBody_waiting {n m : Nat} {s s' : Inbound} {data : Bytes} {frame : Option Frame}
    (hok : takeBody fresh n s data = .ok (m, frame, s')) : n ≤ m ∧ s'.Waiting := by
  unfold takeBody at hok
  cases hconsume : consumeData s data with
  | error fault =>
      rw [hconsume] at hok
      cases hok
  | ok pair =>
      simp only [hconsume, Bind.bind, Except.bind] at hok
      split at hok
      · rename_i hshort
        cases hok
        exact ⟨Nat.le_add_right _ _, hshort⟩
      · obtain ⟨hn, hwaiting⟩ := finishFrame_waiting fresh hok
        exact ⟨by omega, hwaiting⟩

theorem startFrame_waiting {n m : Nat} {s s' : Inbound} {data : Bytes} {frame : Option Frame}
    (hok : startFrame fresh n data s = .ok (m, frame, s')) : n ≤ m ∧ s'.Waiting := by
  unfold startFrame at hok
  dsimp only at hok
  split at hok
  · cases hok
  · exact takeBody_waiting fresh hok

theorem amqpHandleInput_waiting {s s' : Inbound} {data : Bytes} {n : Nat} {frame : Option Frame}
    (h : s.Waiting) (hdata : data ≠ []) (hok : amqpHandleInput fresh s data = .ok (n, frame, s')) :
    0 < n ∧ s'.Waiting := by
  unfold amqpHandleInput at hok
  rw [if_neg hdata] at hok
  dsimp only at hok
  have hwaiting : (if s.state = .idle then { s with state := .header } else s).Waiting := by
    split <;> exact h
  cases hconsume : consumeData (if s.state = .idle then { s with state := .header } else s) data with
  | error fault =>
      rw [hconsume] at hok
      cases hok
  | ok pair =>
      have hpos := consumeData_waiting hwaiting hdata hconsume
      simp only [hconsume, Bind.bind, Except.bind] at hok
      split at hok
      · rename_i hshort
        cases hok
        exact ⟨hpos, hshort⟩
      · split at hok
        · split at hok
          · cases hok
            exact ⟨hpos, show 0 < headerSize by decide⟩
          · obtain ⟨hn, hnext⟩ := startFrame_waiting fresh hok
            exact ⟨by omega, hnext⟩
        · obtain ⟨hn, hnext⟩ := startFrame_waiting fresh hok
          exact ⟨by omega, hnext⟩
        · obtain ⟨hn, hnext⟩ := finishFrame_waiting fresh hok
          exact ⟨by omega, hnext⟩
        · cases hok

theorem consumeFrames_rounds {n m : Nat} {s : Inbound} {data : Bytes} (h : s.Waiting)
    (hn : data.length ≤ n) (hm : data.length ≤ m) :
    consumeFrames fresh n s data = consumeFrames fresh m s data := by
  induction n generalizing m s data with
  | zero =>
      rw [List.length_eq_zero_iff.mp (Nat.le_zero.mp hn)]
      cases m <;> rfl
  | succ n ih =>
      cases data with
      | nil => cases m <;> rfl
      | cons u rest =>
          cases m with
          | zero => cases hm
          | succ m =>
              unfold consumeFrames
              cases hcall : amqpHandleInput fresh s (u :: rest) with
              | error fault => rfl
              | ok result =>
                  obtain ⟨hpos, hwaiting⟩ := amqpHandleInput_waiting fresh h (List.cons_ne_nil u rest) hcall
                  have hless : ((u :: rest).drop result.1).length ≤ rest.length := by
                    rw [List.length_drop, List.length_cons]
                    omega
                  rw [List.length_cons] at hn hm
                  have hsame : consumeFrames fresh n result.2.2 ((u :: rest).drop result.1) =
                      consumeFrames fresh m result.2.2 ((u :: rest).drop result.1) :=
                    ih hwaiting (by omega) (by omega)
                  simp only [hsame]

/-! ## A wait and the frames to come -/

/-- What a pass over the buffer says about the frames in it. -/
def PassMeets (pass : Except WireFault (Option Frame × Inbound × Bytes))
    (all : List Frame × Except WireFault Inbound) : Prop :=
  match pass with
  | .error fault => visible all.1 = [] ∧ all.2 = .error fault
  | .ok (none, s, data) => data = [] ∧ s.Waiting ∧ visible all.1 = [] ∧ all.2 = .ok s
  | .ok (some frame, s, data) =>
      s.Waiting ∧ visible all.1 = frame :: visible (consumeFrames fresh data.length s data).1 ∧
        all.2 = (consumeFrames fresh data.length s data).2

theorem PassMeets.behind {pass : Except WireFault (Option Frame × Inbound × Bytes)}
    {all : List Frame × Except WireFault Inbound} (h : PassMeets fresh pass all) {frames : List Frame}
    (hframes : visible frames = []) : PassMeets fresh pass (frames ++ all.1, all.2) := by
  have hvisible : visible (frames ++ all.1) = visible all.1 := by
    rw [visible_append, hframes, List.nil_append]
  unfold PassMeets at h ⊢
  rw [hvisible]
  exact h

theorem waitInBuffer_meets {rounds : Nat} {s : Inbound} {data : Bytes} (h : s.Waiting)
    (hrounds : data.length ≤ rounds) :
    PassMeets fresh (waitInBuffer fresh rounds s data) (consumeFrames fresh rounds s data) := by
  induction rounds generalizing s data with
  | zero =>
      rw [List.length_eq_zero_iff.mp (Nat.le_zero.mp hrounds)]
      exact ⟨rfl, h, rfl, rfl⟩
  | succ rounds ih =>
      cases data with
      | nil => exact ⟨rfl, h, rfl, rfl⟩
      | cons u rest =>
          unfold waitInBuffer consumeFrames
          cases hcall : amqpHandleInput fresh s (u :: rest) with
          | error fault => exact ⟨rfl, rfl⟩
          | ok result =>
              obtain ⟨bytesConsumed, frame, s'⟩ := result
              obtain ⟨hpos, hwaiting⟩ := amqpHandleInput_waiting fresh h (List.cons_ne_nil u rest) hcall
              rw [List.length_cons] at hrounds
              have hless : ((u :: rest).drop bytesConsumed).length ≤ rounds := by
                rw [List.length_drop, List.length_cons]
                omega
              have hnext := ih hwaiting hless
              cases frame with
              | none => exact hnext.behind fresh (show visible [] = [] from rfl)
              | some frame =>
                  by_cases hbeat : frame.payload.isHeartbeat
                  · simp only [hbeat, if_true]
                    apply hnext.behind fresh
                    simp [visible, hbeat]
                  · have hrest := consumeFrames_rounds fresh hwaiting hless (Nat.le_refl _)
                    simp only [hbeat, Bool.false_eq_true, if_false, hrest]
                    refine ⟨hwaiting, ?_, rfl⟩
                    rw [visible_append]
                    simp [visible, hbeat]

/-- What a wait says about the frames to come. -/
def WaitMeets (queue : List Frame) (result : Except WireFault (Frame × Receiver))
    (all : List Frame × Except WireFault Inbound) : Prop :=
  match result with
  | .error _ => visible all.1 = []
  | .ok (frame, r) =>
      r.queue = queue ∧ r.inbound.Waiting ∧ visible all.1 = frame :: r.frames fresh ∧
        all.2 = (r.run fresh).2

theorem WaitMeets.behind {queue : List Frame} {result : Except WireFault (Frame × Receiver)}
    {all : List Frame × Except WireFault Inbound} (h : WaitMeets fresh queue result all)
    {frames : List Frame} (hframes : visible frames = []) :
    WaitMeets fresh queue result (frames ++ all.1, all.2) := by
  have hvisible : visible (frames ++ all.1) = visible all.1 := by
    rw [visible_append, hframes, List.nil_append]
  unfold WaitMeets at h ⊢
  rw [hvisible]
  exact h

theorem receiveChunks_cons_ok {s s' : Inbound} {data : Bytes} {chunks : List Bytes} {frames : List Frame}
    (h : consumeFrames fresh data.length s data = (frames, .ok s')) :
    receiveChunks fresh s (data :: chunks) =
      (frames ++ (receiveChunks fresh s' chunks).1, (receiveChunks fresh s' chunks).2) := by
  rw [receiveChunks, h]

theorem receiveChunks_cons_error {s : Inbound} {data : Bytes} {chunks : List Bytes} {frames : List Frame}
    {fault : WireFault} (h : consumeFrames fresh data.length s data = (frames, .error fault)) :
    receiveChunks fresh s (data :: chunks) = (frames, .error fault) := by
  rw [receiveChunks, h]

theorem receiveChunks_nil_cons (s : Inbound) (chunks : List Bytes) :
    receiveChunks fresh s ([] :: chunks) = receiveChunks fresh s chunks :=
  receiveChunks_cons_ok fresh (show consumeFrames fresh (List.length []) s [] = ([], .ok s) from rfl)

/-- A wait comes out as the pass over the buffer does, if what is done on an empty buffer is right. -/
theorem PassMeets.wait {pass : Except WireFault (Option Frame × Inbound × Bytes)} {queue : List Frame}
    {answers : List RecvAnswer} {s : Inbound} {data : Bytes}
    (h : PassMeets fresh pass (consumeFrames fresh data.length s data))
    {more : Inbound → Bytes → Except WireFault (Frame × Receiver)}
    (hmore : ∀ s', s'.Waiting → WaitMeets fresh queue (more s' []) (receiveChunks fresh s' (flow answers))) :
    WaitMeets fresh queue
      (match pass with
        | .error fault => .error fault
        | .ok (some frame, s, data) => .ok (frame, ⟨s, data, answers, queue⟩)
        | .ok (none, s, data) => more s data)
      (receiveChunks fresh s (data :: flow answers)) := by
  cases hall : consumeFrames fresh data.length s data with
  | mk frames result =>
      rw [hall] at h
      unfold PassMeets at h
      cases pass with
      | error fault =>
          obtain ⟨hnone, hresult⟩ := h
          simp only at hresult
          rw [hresult] at hall
          rw [receiveChunks_cons_error fresh hall]
          exact hnone
      | ok found =>
          obtain ⟨frame, s', rest⟩ := found
          cases frame with
          | none =>
              obtain ⟨hrest, hwaiting, hnone, hresult⟩ := h
              simp only at hresult hnone
              rw [hresult] at hall
              rw [receiveChunks_cons_ok fresh hall, hrest]
              exact (hmore s' hwaiting).behind fresh hnone
          | some frame =>
              obtain ⟨hwaiting, hframes, hresult⟩ := h
              cases hlater : consumeFrames fresh rest.length s' rest with
              | mk frames' result' =>
                  rw [hlater] at hframes hresult
                  simp only at hframes hresult
                  rw [hresult] at hall
                  unfold WaitMeets Receiver.frames Receiver.run
                  dsimp only
                  cases result' with
                  | error fault =>
                      rw [receiveChunks_cons_error fresh hall, receiveChunks_cons_error fresh hlater]
                      exact ⟨rfl, hwaiting, hframes, rfl⟩
                  | ok last =>
                      rw [receiveChunks_cons_ok fresh hall, receiveChunks_cons_ok fresh hlater]
                      refine ⟨rfl, hwaiting, ?_, rfl⟩
                      rw [visible_append, visible_append, hframes]
                      rfl

theorem waitFrameLoop_meets (queue : List Frame) (answers : List RecvAnswer) {s : Inbound} {data : Bytes}
    (h : s.Waiting) :
    WaitMeets fresh queue (waitFrameLoop fresh queue answers s data)
      (receiveChunks fresh s (data :: flow answers)) := by
  induction answers generalizing s data with
  | nil =>
      unfold waitFrameLoop
      apply (waitInBuffer_meets fresh h (Nat.le_refl data.length)).wait fresh
      intro s' hwaiting
      exact rfl
  | cons answer answers ih =>
      unfold waitFrameLoop
      apply (waitInBuffer_meets fresh h (Nat.le_refl data.length)).wait fresh
      intro s' hwaiting
      cases answer with
      | interrupted =>
          have hnext := @ih s' [] hwaiting
          rwa [receiveChunks_nil_cons] at hnext
      | failed => exact rfl
      | received chunk =>
          cases chunk with
          | nil => exact rfl
          | cons u chunk => exact ih hwaiting

/-- A wait takes the first frame to come, and fails if there is none. -/
theorem waitFrameInner_meets {r : Receiver} (h : r.inbound.Waiting) :
    WaitMeets fresh r.queue (waitFrameInner fresh r) (r.run fresh) :=
  waitFrameLoop_meets fresh r.queue r.answers h

theorem waitFrameInner_cons {r : Receiver} (h : r.inbound.Waiting) {frame : Frame} {rest : List Frame}
    (hframes : r.frames fresh = frame :: rest) :
    ∃ r', waitFrameInner fresh r = .ok (frame, r') ∧ r'.frames fresh = rest ∧ r'.queue = r.queue ∧
      r'.inbound.Waiting := by
  have hmeets := waitFrameInner_meets fresh h
  unfold Receiver.frames at hframes
  unfold WaitMeets at hmeets
  cases hwait : waitFrameInner fresh r with
  | error fault =>
      rw [hwait] at hmeets
      simp only [hframes] at hmeets
      cases hmeets
  | ok result =>
      obtain ⟨frame', r'⟩ := result
      rw [hwait] at hmeets
      obtain ⟨hqueue, hwaiting, hall, _⟩ := hmeets
      rw [hframes] at hall
      obtain ⟨hframe, hrest⟩ := List.cons.inj hall
      rw [hframe, hrest]
      exact ⟨r', rfl, rfl, hqueue, hwaiting⟩

theorem waitFrameInner_nil {r : Receiver} (h : r.inbound.Waiting) (hframes : r.frames fresh = []) :
    ∃ fault, waitFrameInner fresh r = .error fault := by
  have hmeets := waitFrameInner_meets fresh h
  unfold Receiver.frames at hframes
  unfold WaitMeets at hmeets
  cases hwait : waitFrameInner fresh r with
  | error fault => exact ⟨fault, rfl⟩
  | ok result =>
      rw [hwait] at hmeets
      obtain ⟨_, _, hall, _⟩ := hmeets
      rw [hframes] at hall
      cases hall

end Neb2Amqp
