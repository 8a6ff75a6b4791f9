import Neb2Amqp.Librabbitmq.Clone
import Neb2Amqp.Librabbitmq.Rpc

/-!
# Reading a message

`amqp_read_message` of amqp_consumer.c: a content header, and then pieces of a body until all
octets that the header promises are there. How a frame is waited for is left open; what the
function makes of the frames does not depend on it.
-/

namespace Neb2Amqp

open CLib

/-- `amqp_message_t`. -/
structure AmqpMessage where
  properties : Properties
  body : Bytes

/-- Why there is no message: the library gave up, or the server closed the channel or the connection. -/
inductive ReadFailure
  | library (fault : WireFault)
  | server (m : MethodCall)

section

variable {σ : Type} (wait : σ → Except WireFault (Frame × σ))

def MethodCall.closes (m : MethodCall) : Bool := m.method = .channelClose ∨ m.method = .connectionClose

/-- The loop over the body, with the rounds it may still make. -/
def readBody (bodySize : Nat) : Nat → Bytes → σ → Except ReadFailure (Bytes × σ)
  | 0, _, _ => .error (.library .unfinished)
  | rounds + 1, bodyRead, s =>
      if bodySize ≤ bodyRead.length then .ok (bodyRead, s)
      else match wait s with
        | .error fault => .error (.library fault)
        | .ok (⟨_, .body fragment⟩, s) =>
            if bodySize < bodyRead.length + fragment.length then .error (.library (.status .badAmqpData))
            else readBody bodySize rounds (bodyRead ++ fragment) s
        | .ok (⟨_, .method m⟩, _) =>
            if m.closes then .error (.server m) else .error (.library (.status .badAmqpData))
        | .ok _ => .error (.library (.status .badAmqpData))

/-- The connection is not followed behind a failure, where a frame that is no content header is put
back unless it closes something. -/
def amqpReadMessage (rounds : Nat) (s : σ) : Except ReadFailure (AmqpMessage × σ) :=
  match wait s with
  | .error fault => .error (.library fault)
  | .ok (⟨_, .header bodySize properties⟩, s) =>
      match amqpBasicPropertiesClone properties with
      | .error fault => .error (.library fault)
      | .ok properties =>
          match readBody wait bodySize.toNat rounds [] s with
          | .error failure => .error failure
          | .ok (body, s) => .ok (⟨properties, body⟩, s)
  | .ok (⟨_, .method m⟩, _) =>
      if m.closes then .error (.server m) else .error (.library (.status .unexpectedState))
  | .ok _ => .error (.library (.status .unexpectedState))

end

/-! ## The frames of a message -/

/-- Waiting takes the first frame off the list `frames`, as long as the state is `sound`. -/
structure Takes {σ : Type} (wait : σ → Except WireFault (Frame × σ)) (sound : σ → Prop)
    (frames : σ → List Frame) : Prop where
  next : ∀ {s : σ} {frame : Frame} {rest : List Frame}, sound s → frames s = frame :: rest →
    ∃ s', wait s = .ok (frame, s') ∧ frames s' = rest ∧ sound s'
  taken : ∀ {s s' : σ} {frame : Frame}, sound s → wait s = .ok (frame, s') →
    frames s = frame :: frames s' ∧ sound s'

section

variable {σ : Type} {wait : σ → Except WireFault (Frame × σ)} {sound : σ → Prop} {frames : σ → List Frame}
  (hwait : Takes wait sound frames)

include hwait

theorem readBody_fragments (bodySize : Nat) (bodyRead : Bytes) {channel : UInt16} {rounds : Nat} {s : σ}
    {pieces : List Bytes} {rest : List Frame} (hs : sound s)
    (hsize : bodySize = bodyRead.length + pieces.flatten.length) (hpieces : ∀ p ∈ pieces, p ≠ [])
    (hrounds : pieces.length < rounds)
    (hframes : frames s = (pieces.map fun p => ⟨channel, .body p⟩) ++ rest) :
    ∃ s', readBody wait bodySize rounds bodyRead s = .ok (bodyRead ++ pieces.flatten, s') ∧
      frames s' = rest ∧ sound s' := by
  induction rounds generalizing bodyRead s pieces with
  | zero => cases hrounds
  | succ rounds ih =>
      unfold readBody
      cases pieces with
      | nil =>
          rw [List.flatten_nil, List.length_nil, Nat.add_zero] at hsize
          rw [if_pos (Nat.le_of_eq hsize), List.flatten_nil, List.append_nil]
          exact ⟨s, rfl, hframes, hs⟩
      | cons p pieces =>
          obtain ⟨s', hnext, hlater, hs'⟩ := hwait.next hs hframes
          have hpos := List.length_pos_iff.mpr (hpieces p List.mem_cons_self)
          rw [List.flatten_cons, List.length_append] at hsize
          rw [if_neg (by omega)]
          simp only [hnext]
          rw [if_neg (by omega), List.flatten_cons, ← List.append_assoc]
          apply ih (bodyRead ++ p) hs'
          · rw [List.length_append]
            omega
          · exact fun q hq => hpieces q (List.mem_cons_of_mem p hq)
          · exact Nat.lt_of_succ_lt_succ hrounds
          · exact hlater

theorem amqpReadMessage_frames {channel : UInt16} {rounds : Nat} {s : σ} {flags : UInt32}
    {members : Members PropertyClass.basic.layout} {bodySize : UInt64} {pieces : List Bytes}
    {rest : List Frame} (hs : sound s) (hkeyed : membersKeyed flags PropertyClass.basic.layout members)
    (hsize : bodySize.toNat = pieces.flatten.length) (hpieces : ∀ p ∈ pieces, p ≠ [])
    (hrounds : pieces.length < rounds)
    (hframes : frames s = ⟨channel, .header bodySize ⟨.basic, flags, members⟩⟩ ::
      ((pieces.map fun p => ⟨channel, .body p⟩) ++ rest)) :
    ∃ s', amqpReadMessage wait rounds s =
        .ok (⟨⟨.basic, flags, received flags PropertyClass.basic.layout members
          (zeroMembers PropertyClass.basic.layout)⟩, pieces.flatten⟩, s') ∧ frames s' = rest ∧ sound s' := by
  obtain ⟨s1, hnext, hlater, hs1⟩ := hwait.next hs hframes
  obtain ⟨s2, hbody, hrest⟩ := readBody_fragments hwait bodySize.toNat [] hs1
    (by rw [hsize]; exact (Nat.zero_add _).symm) hpieces hrounds hlater
  refine ⟨s2, ?_, hrest⟩
  unfold amqpReadMessage amqpBasicPropertiesClone
  have hclone := (cloned_cloneMembers flags PropertyClass.basic.layout members).1 hkeyed
  simp only [hnext, hclone, Bind.bind, Except.bind]
  rw [List.nil_append] at hbody
  simp only [pure, Except.pure, hbody]

theorem readBody_ok (bodySize : Nat) {rounds : Nat} {bodyRead body : Bytes} {s s' : σ} (hs : sound s)
    (hbefore : bodyRead.length ≤ bodySize) (hok : readBody wait bodySize rounds bodyRead s = .ok (body, s')) :
    ∃ bodies : List (UInt16 × Bytes),
      frames s = (bodies.map fun b => ⟨b.1, .body b.2⟩) ++ frames s' ∧
        body = bodyRead ++ (bodies.map Prod.snd).flatten ∧ body.length = bodySize ∧ sound s' := by
  induction rounds generalizing bodyRead s with
  | zero => cases hok
  | succ rounds ih =>
      unfold readBody at hok
      split at hok
      · rename_i hall
        cases hok
        exact ⟨[], rfl, (List.append_nil _).symm, Nat.le_antisymm hbefore hall, hs⟩
      · split at hok
        · cases hok
        · rename_i channel fragment s1 hnext
          obtain ⟨hframes, hs1⟩ := hwait.taken hs hnext
          split at hok
          · cases hok
          · rename_i hfits
            obtain ⟨bodies, hlater, hbody, hlength, hlast⟩ :=
              ih hs1 (by rw [List.length_append]; omega) hok
            refine ⟨(channel, fragment) :: bodies, ?_, ?_, hlength, hlast⟩
            · rw [hframes, hlater]
              rfl
            · rw [hbody, List.map_cons, List.flatten_cons, List.append_assoc]
        · split at hok
          · cases hok
          · cases hok
        · cases hok

/-- A message is made of a content header and the pieces that follow it, which have the size it says. -/
theorem amqpReadMessage_ok {rounds : Nat} {s s' : σ} {m : AmqpMessage} (hs : sound s)
    (hok : amqpReadMessage wait rounds s = .ok (m, s')) :
    ∃ (channel : UInt16) (bodySize : UInt64) (properties : Properties) (bodies : List (UInt16 × Bytes)),
      frames s = ⟨channel, .header bodySize properties⟩ ::
          ((bodies.map fun b => ⟨b.1, .body b.2⟩) ++ frames s') ∧
        amqpBasicPropertiesClone properties = .ok m.properties ∧ m.body = (bodies.map Prod.snd).flatten ∧
        m.body.length = bodySize.toNat ∧ sound s' := by
  unfold amqpReadMessage at hok
  split at hok
  · cases hok
  · rename_i channel bodySize properties s1 hnext
    obtain ⟨hframes, hs1⟩ := hwait.taken hs hnext
    split at hok
    · cases hok
    · rename_i clone hclone
      split at hok
      · cases hok
      · rename_i body s2 hread
        cases hok
        obtain ⟨bodies, hlater, hbody, hlength, hlast⟩ :=
          readBody_ok hwait bodySize.toNat hs1 (Nat.zero_le _) hread
        refine ⟨channel, bodySize, properties, bodies, ?_, hclone, hbody, hlength, hlast⟩
        rw [hframes, hlater]
  · split at hok
    · cases hok
    · cases hok
  · cases hok

end

/-! ## On a connection -/

variable (fresh : ∀ c : PropertyClass, Members c.layout)

/-- The frames of a channel, first those that are queued. -/
def Receiver.onChannel (channel : UInt16) (r : Receiver) : List Frame :=
  (r.queue ++ r.frames fresh).filter fun f => channel = f.channel

theorem takeQueued_some {channel : UInt16} {queue rest : List Frame} {frame : Frame}
    (h : takeQueued channel queue = some (frame, rest)) :
    queue.filter (fun f => channel = f.channel) = frame :: rest.filter fun f => channel = f.channel := by
  induction queue with
  | nil => cases h
  | cons f queue ih =>
      unfold takeQueued at h
      split at h
      · rename_i hchannel
        cases h
        rw [List.filter_cons_of_pos (by simpa using hchannel)]
      · rename_i hchannel
        rw [List.filter_cons_of_neg (by simpa using hchannel)]
        exact ih h

theorem takeQueued_none {channel : UInt16} {queue : List Frame} (h : takeQueued channel queue = none) :
    queue.filter (fun f => channel = f.channel) = [] := by
  induction queue with
  | nil => rfl
  | cons f queue ih =>
      unfold takeQueued at h
      split at h
      · cases h
      · rename_i hchannel
        rw [List.filter_cons_of_neg (by simpa using hchannel)]
        exact ih h

theorem waitOnChannel_cons {channel : UInt16} {rounds : Nat} {r : Receiver} (h : r.inbound.Waiting)
    {frame : Frame} {rest : List Frame} (hrounds : (r.frames fresh).length < rounds)
    (hframes : (r.frames fresh).filter (fun f => channel = f.channel) = frame :: rest) :
    ∃ r', waitOnChannel fresh channel rounds r = .ok (frame, r') ∧
      (r'.frames fresh).filter (fun f => channel = f.channel) = rest ∧
      r'.queue.filter (fun f => channel = f.channel) = r.queue.filter (fun f => channel = f.channel) ∧
      r'.inbound.Waiting := by
  induction rounds generalizing r with
  | zero => cases hrounds
  | succ rounds ih =>
      unfold waitOnChannel
      cases hall : r.frames fresh with
      | nil =>
          rw [hall] at hframes
          cases hframes
      | cons f later =>
          obtain ⟨r', hwait, hlater, hqueue, hwaiting⟩ := waitFrameInner_cons fresh h hall
          rw [hall] at hframes hrounds
          simp only [hwait]
          by_cases hchannel : channel = f.channel
          · rw [List.filter_cons_of_pos (by simpa using hchannel)] at hframes
            obtain ⟨hf, hrest⟩ := List.cons.inj hframes
            rw [if_pos hchannel, hf]
            exact ⟨r', rfl, by rw [hlater, hrest], by rw [hqueue], hwaiting⟩
          · rw [List.filter_cons_of_neg (by simpa using hchannel)] at hframes
            rw [if_neg hchannel]
            have hsame : (amqpQueueFrame f r').frames fresh = later := hlater
            obtain ⟨last, hlast, hrest, hkept, hsound⟩ := @ih (amqpQueueFrame f r') hwaiting
              (by rw [hsame]; exact Nat.lt_of_succ_lt_succ hrounds) (by rw [hsame]; exact hframes)
            refine ⟨last, hlast, hrest, ?_, hsound⟩
            rw [hkept, amqpQueueFrame, List.filter_append, hqueue,
              List.filter_cons_of_neg (by simpa using hchannel), List.filter_nil, List.append_nil]

theorem waitOnChannel_nil {channel : UInt16} (rounds : Nat) {r : Receiver} (h : r.inbound.Waiting)
    (hframes : (r.frames fresh).filter (fun f => channel = f.channel) = []) :
    ∃ fault, waitOnChannel fresh channel rounds r = .error fault := by
  induction rounds generalizing r with
  | zero => exact ⟨_, rfl⟩
  | succ rounds ih =>
      unfold waitOnChannel
      cases hall : r.frames fresh with
      | nil =>
          obtain ⟨fault, hwait⟩ := waitFrameInner_nil fresh h hall
          exact ⟨fault, by rw [hwait]⟩
      | cons f later =>
          obtain ⟨r', hwait, hlater, hqueue, hwaiting⟩ := waitFrameInner_cons fresh h hall
          rw [hall] at hframes
          simp only [hwait]
          by_cases hchannel : channel = f.channel
          · rw [List.filter_cons_of_pos (by simpa using hchannel)] at hframes
            cases hframes
          · rw [List.filter_cons_of_neg (by simpa using hchannel)] at hframes
            rw [if_neg hchannel]
            have hsame : (amqpQueueFrame f r').frames fresh = later := hlater
            exact @ih (amqpQueueFrame f r') hwaiting (by rw [hsame]; exact hframes)

/-- The frames of a channel come in their order, and each of them once. Frames of other channels may
be lost on the way. -/
theorem takes_amqpSimpleWaitFrameOnChannel (channel : UInt16) :
    Takes (amqpSimpleWaitFrameOnChannel fresh channel) (fun r => r.inbound.Waiting)
      (Receiver.onChannel fresh channel) := by
  have hnext : ∀ {r : Receiver} {frame : Frame} {rest : List Frame}, r.inbound.Waiting →
      r.onChannel fresh channel = frame :: rest →
      ∃ r', amqpSimpleWaitFrameOnChannel fresh channel r = .ok (frame, r') ∧
        r'.onChannel fresh channel = rest ∧ r'.inbound.Waiting := by
    intro r frame rest h hframes
    unfold Receiver.onChannel at hframes
    rw [List.filter_append] at hframes
    unfold amqpSimpleWaitFrameOnChannel
    cases hqueued : takeQueued channel r.queue with
    | some found =>
        obtain ⟨f, queue⟩ := found
        rw [takeQueued_some hqueued, List.cons_append] at hframes
        obtain ⟨hf, hrest⟩ := List.cons.inj hframes
        rw [hf]
        refine ⟨_, rfl, ?_, h⟩
        unfold Receiver.onChannel
        rw [List.filter_append, Receiver.frames_queue]
        exact hrest
    | none =>
        rw [takeQueued_none hqueued, List.nil_append] at hframes
        obtain ⟨r', hwait, hlater, hkept, hwaiting⟩ := waitOnChannel_cons fresh h
          (Nat.lt_succ_of_le (r.frames_length fresh h)) hframes
        refine ⟨r', hwait, ?_, hwaiting⟩
        unfold Receiver.onChannel
        rw [List.filter_append, hkept, takeQueued_none hqueued, List.nil_append, hlater]
  constructor
  · exact hnext
  · intro r r' frame h hok
    cases hall : r.onChannel fresh channel with
    | nil =>
        have hnone := hall
        unfold Receiver.onChannel at hnone
        rw [List.filter_append, List.append_eq_nil_iff] at hnone
        unfold amqpSimpleWaitFrameOnChannel at hok
        cases hqueued : takeQueued channel r.queue with
        | some found =>
            obtain ⟨f, queue⟩ := found
            rw [takeQueued_some hqueued] at hnone
            cases hnone.1
        | none =>
            rw [hqueued] at hok
            obtain ⟨fault, hfault⟩ := waitOnChannel_nil fresh (r.octets + 1) h hnone.2
            simp only [hfault] at hok
            cases hok
    | cons f rest =>
        obtain ⟨last, hwait, hrest, hwaiting⟩ := hnext h hall
        rw [hwait] at hok
        cases hok
        rw [hrest]
        exact ⟨rfl, hwaiting⟩

/-! ## What a wait for a channel leaves -/

theorem takeQueued_split {channel : UInt16} {queue rest : List Frame} {frame : Frame}
    (h : takeQueued channel queue = some (frame, rest)) :
    queue = queue.takeWhile (fun f => channel ≠ f.channel) ++ frame :: rest ∧ channel = frame.channel := by
  induction queue with
  | nil => cases h
  | cons f queue ih =>
      unfold takeQueued at h
      split at h
      · rename_i hchannel
        cases h
        rw [List.takeWhile_cons_of_neg (by simpa using hchannel)]
        exact ⟨rfl, hchannel⟩
      · rename_i hchannel
        rw [List.takeWhile_cons_of_pos (by simpa using hchannel), List.cons_append, ← (ih h).1]
        exact ⟨rfl, (ih h).2⟩

theorem waitOnChannel_others {channel other : UInt16} (hother : other ≠ channel) {rounds : Nat}
    {r r' : Receiver} {frame : Frame} (h : r.inbound.Waiting)
    (hok : waitOnChannel fresh channel rounds r = .ok (frame, r')) :
    r'.onChannel fresh other = r.onChannel fresh other := by
  induction rounds generalizing r with
  | zero => cases hok
  | succ rounds ih =>
      unfold waitOnChannel at hok
      cases hall : r.frames fresh with
      | nil =>
          obtain ⟨fault, hwait⟩ := waitFrameInner_nil fresh h hall
          simp only [hwait] at hok
          cases hok
      | cons f later =>
          obtain ⟨last, hwait, hlater, hqueue, hwaiting⟩ := waitFrameInner_cons fresh h hall
          simp only [hwait] at hok
          split at hok
          · rename_i hchannel
            cases hok
            unfold Receiver.onChannel
            rw [hall, hlater, hqueue, List.filter_append, List.filter_append,
              List.filter_cons_of_neg (by simpa [← hchannel] using hother)]
          · -- The frame goes from the front of those to come to the end of the queue.
            have hsame : (amqpQueueFrame f last).frames fresh = later := hlater
            rw [@ih (amqpQueueFrame f last) hwaiting hok]
            unfold Receiver.onChannel
            rw [hsame, hall, amqpQueueFrame, hqueue, List.append_assoc]
            rfl

/-- A wait for a channel loses the frames of other channels that are queued before the one it takes,
and no others. -/
theorem amqpSimpleWaitFrameOnChannel_others {channel other : UInt16} (hother : other ≠ channel)
    {r r' : Receiver} {frame : Frame} (h : r.inbound.Waiting)
    (hok : amqpSimpleWaitFrameOnChannel fresh channel r = .ok (frame, r')) :
    r.onChannel fresh other =
      (if ∃ f ∈ r.queue, channel = f.channel then
        (r.queue.takeWhile fun f => channel ≠ f.channel).filter fun f => other = f.channel
      else []) ++ r'.onChannel fresh other := by
  unfold amqpSimpleWaitFrameOnChannel at hok
  cases hqueued : takeQueued channel r.queue with
  | some found =>
      obtain ⟨f, queue⟩ := found
      rw [hqueued] at hok
      cases hok
      obtain ⟨hsplit, hchannel⟩ := takeQueued_split hqueued
      have hsome : ∃ f ∈ r.queue, channel = f.channel := by
        refine ⟨frame, ?_, hchannel⟩
        rw [hsplit]
        exact List.mem_append_right _ List.mem_cons_self
      rw [if_pos hsome]
      unfold Receiver.onChannel
      conv_lhs => rw [hsplit]
      rw [List.append_assoc, List.cons_append, List.filter_append,
        List.filter_cons_of_neg (by simpa [← hchannel] using hother)]
      rfl
  | none =>
      rw [hqueued] at hok
      have hnone : ¬ ∃ f ∈ r.queue, channel = f.channel := by
        rintro ⟨f, hf, hchannel⟩
        have hmem : f ∈ r.queue.filter fun f => channel = f.channel := List.mem_filter.mpr ⟨hf, by simpa using hchannel⟩
        rw [takeQueued_none hqueued] at hmem
        cases hmem
      rw [if_neg hnone, List.nil_append]
      exact (waitOnChannel_others fresh hother h hok).symm

/-- Two frames are queued. The one of channel 2 is gone after a wait for channel 1. -/
theorem amqpSimpleWaitFrameOnChannel_others_queued :
    ∃ r' : Receiver, Receiver.onChannel (fun c => zeroMembers c.layout) 2
        ⟨⟨.idle, List.replicate 8 0, none, 0, headerSize⟩, [], [], [⟨2, .body [7]⟩, ⟨1, .heartbeat⟩]⟩ =
      [⟨2, .body [7]⟩] ++ r'.onChannel (fun c => zeroMembers c.layout) 2 := by
  let r : Receiver :=
    ⟨⟨.idle, List.replicate 8 0, none, 0, headerSize⟩, [], [], [⟨2, .body [7]⟩, ⟨1, .heartbeat⟩]⟩
  have hok : amqpSimpleWaitFrameOnChannel (fun c => zeroMembers c.layout) 1 r =
      .ok (⟨1, .heartbeat⟩, { r with queue := [] }) := rfl
  have hqueued : ∃ f ∈ r.queue, (1 : UInt16) = f.channel := ⟨⟨1, .heartbeat⟩, by simp [r], rfl⟩
  have hothers := amqpSimpleWaitFrameOnChannel_others (fun c => zeroMembers c.layout)
    (show (2 : UInt16) ≠ 1 by decide) (show r.inbound.Waiting from show 0 < headerSize by decide) hok
  rw [if_pos hqueued] at hothers
  exact ⟨_, hothers⟩

/-- A message on one channel of a connection, between frames of others: what is read is what its
header and the pieces of its body say, and what can be read is the next message of the channel. -/
theorem amqpReadMessage_onChannel (channel : UInt16) {r : Receiver} (h : r.inbound.Waiting) :
    (∀ (rounds : Nat) (m : AmqpMessage) (r' : Receiver),
      amqpReadMessage (amqpSimpleWaitFrameOnChannel fresh channel) rounds r = .ok (m, r') →
      ∃ (bodySize : UInt64) (properties : Properties) (pieces : List Bytes),
        r.onChannel fresh channel = ⟨channel, .header bodySize properties⟩ ::
          ((pieces.map fun p => ⟨channel, .body p⟩) ++ r'.onChannel fresh channel) ∧
        amqpBasicPropertiesClone properties = .ok m.properties ∧ m.body = pieces.flatten ∧
        m.body.length = bodySize.toNat) ∧
    ∀ (rounds : Nat) (flags : UInt32) (members : Members PropertyClass.basic.layout) (bodySize : UInt64)
      (pieces : List Bytes) (rest : List Frame),
      membersKeyed flags PropertyClass.basic.layout members → bodySize.toNat = pieces.flatten.length →
      (∀ p ∈ pieces, p ≠ []) → pieces.length < rounds →
      r.onChannel fresh channel = ⟨channel, .header bodySize ⟨.basic, flags, members⟩⟩ ::
        ((pieces.map fun p => ⟨channel, .body p⟩) ++ rest) →
      ∃ r', amqpReadMessage (amqpSimpleWaitFrameOnChannel fresh channel) rounds r =
          .ok (⟨⟨.basic, flags, received flags PropertyClass.basic.layout members
            (zeroMembers PropertyClass.basic.layout)⟩, pieces.flatten⟩, r') ∧
        r'.onChannel fresh channel = rest := by
  have htakes := takes_amqpSimpleWaitFrameOnChannel fresh channel
  constructor
  · intro rounds m r' hok
    obtain ⟨c, bodySize, properties, bodies, hframes, hclone, hbody, hlength, _⟩ :=
      amqpReadMessage_ok htakes h hok
    have hall : ∀ f ∈ r.onChannel fresh channel, channel = f.channel := by
      intro f hf
      simpa using (List.mem_filter.mp hf).2
    rw [hframes] at hall
    have hc : channel = c := hall _ List.mem_cons_self
    have hpieces : (bodies.map fun b => (⟨b.1, .body b.2⟩ : Frame)) =
        (bodies.map Prod.snd).map fun p => ⟨channel, .body p⟩ := by
      rw [List.map_map]
      apply List.map_congr_left
      intro b hb
      have hchannel := hall ⟨b.1, .body b.2⟩
        (List.mem_cons_of_mem _ (List.mem_append_left _ (List.mem_map.mpr ⟨b, hb, rfl⟩)))
      rw [Function.comp_apply, hchannel]
    refine ⟨bodySize, properties, bodies.map Prod.snd, ?_, hclone, hbody, hlength⟩
    rw [hframes, hpieces, ← hc]
  · intro rounds flags members bodySize pieces rest hkeyed hsize hpieces hrounds hframes
    obtain ⟨r', hread, hrest, _⟩ := amqpReadMessage_frames htakes h hkeyed hsize hpieces hrounds hframes
    exact ⟨r', hread, hrest⟩

/-- A message of one octet, with a frame of another channel in it. -/
theorem amqpReadMessage_onChannel_queued :
    ∃ m r', amqpReadMessage (amqpSimpleWaitFrameOnChannel (fun c => zeroMembers c.layout) 1) 2
        ⟨⟨.idle, List.replicate 8 0, none, 0, headerSize⟩, [], [],
          [⟨1, .header 1 ⟨.basic, 0, zeroMembers PropertyClass.basic.layout⟩⟩, ⟨2, .heartbeat⟩, ⟨1, .body [7]⟩]⟩ =
      .ok (m, r') ∧ m.body = [7] := by
  let r : Receiver := ⟨⟨.idle, List.replicate 8 0, none, 0, headerSize⟩, [], [],
    [⟨1, .header 1 ⟨.basic, 0, zeroMembers PropertyClass.basic.layout⟩⟩, ⟨2, .heartbeat⟩, ⟨1, .body [7]⟩]⟩
  have hreads := (amqpReadMessage_onChannel (fun c => zeroMembers c.layout) 1
    (show r.inbound.Waiting from show 0 < headerSize by decide)).2
  have hkeyed : membersKeyed 0 PropertyClass.basic.layout (zeroMembers PropertyClass.basic.layout) := by
    simp [PropertyClass.layout, membersKeyed, hasFlag]
  obtain ⟨r', hread, _⟩ := hreads 2 0 _ 1 [[7]] [] hkeyed
    (show (1 : UInt64).toNat = [[7]].flatten.length by decide) (by simp) (by decide) rfl
  exact ⟨_, r', hread, rfl⟩

end Neb2Amqp
