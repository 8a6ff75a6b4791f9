import Neb2Amqp.Amqp.Attempts
import Neb2Amqp.Events.KeyLengths
import Neb2Amqp.Librabbitmq.LongKeys
import Neb2Amqp.Librabbitmq.Messages

/-!
# What goes over the sockets

`n2a_amqp_publish` down to the octets on its sockets. Every connection has a socket of its own
that takes octets as it likes. Peers that decode them with this library get the events that the
module counts as published, each of them once and in order, however many publications failed on the
way. Of a publication that failed some octets may be out, and `n2a_amqp_disconnect` sends the frames
that close the connection behind them: what a peer makes of both together can be an event that
nobody sent.
-/

namespace Neb2Amqp

open CLib

/-- `AMQP_BASIC_CONTENT_TYPE_FLAG`, `AMQP_BASIC_CONTENT_ENCODING_FLAG` and `AMQP_BASIC_DELIVERY_MODE_FLAG`. -/
def eventFlags : UInt32 := ((1 : UInt32) <<< 15) ||| ((1 : UInt32) <<< 14) ||| ((1 : UInt32) <<< 12)

/-- The variable `props`, which held anything before three of its members were set. -/
def eventMembers (props : Members PropertyClass.basic.layout) : Members PropertyClass.basic.layout :=
  ((CString.lit "application/json").bytes, (CString.lit "UTF-8").bytes, props.2.2.1, (2 : UInt8), props.2.2.2.2)

/-- The call of `amqp_basic_publish` in `n2a_amqp_publish`. -/
def publishEvent (out : Outbound) (exchangeName : CString) (props : Members PropertyClass.basic.layout)
    (ev : Event) : Attempt Socket WireFault :=
  amqpBasicPublishOn out 1 exchangeName.bytes ev.rk.bytes false false
    (basicProperties eventFlags (eventMembers props)) ev.msg.bytes

/-- What a function returns, if it does. -/
def returned : Except WireFault Unit → Option Int32
  | .ok () => some 0
  | .error (.status status) => some status.code
  | .error _ => none

/-- The publications on a connection, with what they returned, take its socket from one state to
another. Nothing is sent between them, but behind the last of them any octets may be, as those of the
frames are that close the connection. Without a name of an exchange there is no publication, for
`amqp_cstring_bytes` reads it. -/
inductive Wired (o : Options) (out : Outbound) : Socket → List (Event × Int32) → Socket → Prop
  | nil {s s' : Socket} (closing : Bytes) (hsent : s'.sent = s.sent ++ closing) : Wired o out s [] s'
  | cons {s s' s'' : Socket} {exchangeName : CString} {ev : Event} {status : Int32}
      {attempts : List (Event × Int32)} {result : Except WireFault Unit}
      (props : Members PropertyClass.basic.layout) (hname : o.exchangeName = some exchangeName)
      (hrun : publishEvent out exchangeName props ev s = (result, s')) (hstatus : returned result = some status)
      (hrest : Wired o out s' attempts s'') : Wired o out s ((ev, status) :: attempts) s''

/-- The publications that a peer which decodes with this library finds in these octets. What is left
of them behind the last one that is complete is not looked at. -/
def peerReads (fresh : ∀ c : PropertyClass, Members c.layout) (octets : Bytes) : List Publication :=
  publications octets.length (parseStream fresh octets).1

/-- The event as it comes out. -/
def eventPublication (exchangeName : CString) (ev : Event) : Publication :=
  ⟨exchangeName.bytes, ev.rk.bytes, [false, false],
    basicProperties eventFlags (eventMembers (zeroMembers PropertyClass.basic.layout)), ev.msg.bytes⟩

/-! ## One connection -/

/-- The names of exchanges that can be sent, on a connection with frames of a size that is read again. -/
structure Outbound.Admits (out : Outbound) (exchangeName : CString) : Prop where
  hexchange : exchangeName.strlen ≤ shortstrMax
  hframeMin : headerSize + footerSize < out.frameMax
  hframeMax : out.frameMax < 2 ^ 32

/-- Events that can be sent: a short key, and a message whose length is a `size_t`. -/
def Event.Sendable (ev : Event) : Prop := ev.KeyFits ∧ ev.msg.strlen < 2 ^ 64

theorem eventMembers_sized (props : Members PropertyClass.basic.layout) :
    (basicProperties eventFlags (eventMembers props)).Sized := by
  have hword : eventFlags.toNat < 2 ^ 16 := by decide
  have heven : eventFlags.toNat % 2 = 0 := by decide
  refine ⟨hword, heven, ?_⟩
  show membersSized eventFlags PropertyClass.basic.layout (eventMembers props)
  simp +decide [PropertyClass.layout, membersSized, fieldSized, eventMembers]

theorem eventMembers_octets (props : Members PropertyClass.basic.layout) :
    (basicProperties eventFlags (eventMembers props)).octets.length = 26 := by
  have htexts : (CString.lit "application/json").bytes.length = 16 ∧ (CString.lit "UTF-8").bytes.length = 5 := by
    decide
  simp +decide [Properties.octets, basicProperties, membersOctets, PropertyClass.layout, fieldOctets,
    eventMembers, htexts]

theorem eventMembers_read (props : Members PropertyClass.basic.layout) :
    readProperties eventFlags (eventMembers props) =
      basicProperties eventFlags (eventMembers (zeroMembers PropertyClass.basic.layout)) := rfl

theorem eventMembers_keyed (props : Members PropertyClass.basic.layout) :
    membersKeyed eventFlags PropertyClass.basic.layout (eventMembers props) := by
  have htable : ¬ hasFlag eventFlags 13 := by decide
  simp [PropertyClass.layout, membersKeyed, fieldKeyed, htable]

theorem event_publishable {out : Outbound} {exchangeName : CString} (hout : out.Admits exchangeName)
    {ev : Event} (hev : ev.Sendable) (props : Members PropertyClass.basic.layout) :
    Publishable out exchangeName.bytes ev.rk.bytes (basicProperties eventFlags (eventMembers props)) where
  hexchange := Nat.lt_succ_of_le hout.hexchange
  hroutingKey := Nat.lt_succ_of_le hev.1
  hproperties := eventMembers_sized props
  hheader := by
    rw [eventMembers_octets]
    decide
  hframeMin := hout.hframeMin
  hframeMax := hout.hframeMax

theorem returned_nonneg {result : Except WireFault Unit} {status : Int32} (h : returned result = some status) :
    0 ≤ status ↔ result = .ok () := by
  unfold returned at h
  split at h
  · cases h
    exact ⟨fun _ => rfl, fun _ => by decide⟩
  · rename_i failure
    cases h
    exact ⟨fun hle => absurd failure.code_neg (Int32.not_lt.mpr hle), fun h => by cases h⟩
  · cases h

/-- The octets of an event with this key and this body. -/
def eventOctets (out : Outbound) (exchangeName : CString) (props : Members PropertyClass.basic.layout)
    (rk : CString) (body : Bytes) : Bytes :=
  (publishFrames out 1 exchangeName.bytes rk.bytes false false
    (basicProperties eventFlags (eventMembers props)) body).flatMap Frame.octets

theorem eventOctets_pos (out : Outbound) (exchangeName : CString) (props : Members PropertyClass.basic.layout)
    (rk : CString) (body : Bytes) : 0 < (eventOctets out exchangeName props rk body).length :=
  publishOctets_length out 1 exchangeName.bytes rk.bytes false false
    (basicProperties eventFlags (eventMembers props)) body

theorem publishEvent_sent {out : Outbound} {exchangeName : CString}
    {props : Members PropertyClass.basic.layout} {ev : Event} {s s' : Socket}
    (hrun : publishEvent out exchangeName props ev s = (.ok (), s')) :
    s'.sent = s.sent ++ eventOctets out exchangeName props ev.rk ev.msg.bytes :=
  (emits_amqpBasicPublishOn (eventMembers_sized props)).all hrun

variable (fresh : ∀ c : PropertyClass, Members c.layout)

theorem publications_eventOctets {out : Outbound} {exchangeName : CString} (hout : out.Admits exchangeName)
    {ev : Event} (hev : ev.Sendable) (props : Members PropertyClass.basic.layout) {body : Bytes}
    (hbody : body.length < 2 ^ 64) (rounds : Nat) (more : Bytes) :
    publications (rounds + 1) (parseStream fresh (eventOctets out exchangeName props ev.rk body ++ more)).1 =
      { eventPublication exchangeName ev with
        message := ⟨basicProperties eventFlags (eventMembers (zeroMembers PropertyClass.basic.layout)), body⟩ } ::
        publications rounds (parseStream fresh more).1 := by
  have hpublishable := event_publishable hout hev props
  unfold eventOctets
  rw [parseStream_frames fresh (publishFrames_sized hpublishable),
    publications_publish fresh hpublishable (eventMembers_keyed props) hbody, eventMembers_read]
  rfl

theorem publishEvent_failed {out : Outbound} {exchangeName : CString} (hout : out.Admits exchangeName)
    {ev : Event} (hev : ev.Sendable) {props : Members PropertyClass.basic.layout} {s s' : Socket}
    {fault : WireFault} (hrun : publishEvent out exchangeName props ev s = (.error fault, s')) :
    ∃ octets, s'.sent = s.sent ++ octets ∧ ∀ rounds, publications rounds (parseStream fresh octets).1 = [] := by
  have hpublishable := event_publishable hout hev props
  obtain ⟨octets, n, pending, hsent, hparse, hpart⟩ := amqpBasicPublishOn_frames fresh hpublishable hrun
  refine ⟨octets, hsent, fun rounds => ?_⟩
  rw [hparse]
  exact publications_part fresh hpublishable hev.2 rounds hpart

/-- What the publications on a connection sent is read as the events that were taken over on it, and
whatever follows is read behind these. -/
theorem Wired.reads {o : Options} {out : Outbound} {exchangeName : CString}
    (hname : o.exchangeName = some exchangeName) (hout : out.Admits exchangeName) {s s' : Socket}
    {attempts : List (Event × Int32)} (h : Wired o out s attempts s') (hlast : FailsLast attempts)
    (hevents : ∀ a ∈ attempts, a.1.Sendable) :
    ∃ octets closing, s'.sent = s.sent ++ octets ++ closing ∧
      (takenOver attempts).length ≤ octets.length ∧ ∀ rounds, (takenOver attempts).length ≤ rounds →
        publications rounds (parseStream fresh octets).1 =
            (takenOver attempts).map (eventPublication exchangeName) ∧
          ∀ more, (takenOver attempts).map (eventPublication exchangeName) <+:
            publications rounds (parseStream fresh (octets ++ more)).1 := by
  induction h with
  | @nil s s' closing hsent =>
      refine ⟨[], closing, by rw [List.append_nil]; exact hsent, Nat.le_refl _, ?_⟩
      intro rounds _
      rw [parseStream_nil]
      refine ⟨?_, fun _ => List.nil_prefix⟩
      cases rounds <;> rfl
  | @cons s s1 s2 name ev status rest result props hsame hrun hstatus hrest ih =>
      cases hname.symm.trans hsame
      have hev := hevents _ List.mem_cons_self
      have hsign := returned_nonneg hstatus
      cases result with
      | ok =>
          have hok : 0 ≤ status := hsign.mpr rfl
          have hlater : FailsLast rest := by
            cases rest with
            | nil => trivial
            | cons a rest => exact hlast.2
          have htaken : takenOver ((ev, status) :: rest) = ev :: takenOver rest := by
            simp [takenOver, hok]
          have hsome := eventOctets_pos out exchangeName props ev.rk ev.msg.bytes
          obtain ⟨octets, closing, hsent, hlength, hreads⟩ :=
            ih hlater fun a ha => hevents a (List.mem_cons_of_mem _ ha)
          refine ⟨_, closing, by rw [hsent, publishEvent_sent hrun, List.append_assoc s.sent], ?_, ?_⟩
          · rw [htaken, List.length_cons, List.length_append]
            omega
          · intro rounds hrounds
            rw [htaken] at hrounds ⊢
            cases rounds with
            | zero => cases hrounds
            | succ rounds =>
                obtain ⟨hexact, hfurther⟩ := hreads rounds (Nat.le_of_succ_le_succ hrounds)
                constructor
                · rw [publications_eventOctets fresh hout hev props hev.2, hexact]
                  rfl
                · intro more
                  rw [List.append_assoc, publications_eventOctets fresh hout hev props hev.2]
                  exact (List.prefix_cons_inj _).mpr (hfurther more)
      | error fault =>
          have hnot : ¬ 0 ≤ status := fun hle => by cases hsign.mp hle
          have hend : rest = [] := by
            cases rest with
            | nil => rfl
            | cons a rest => exact absurd hlast.1 hnot
          subst hend
          obtain ⟨closing, hclosing⟩ : ∃ closing, s2.sent = s1.sent ++ closing := by
            cases hrest with
            | nil closing hsent => exact ⟨closing, hsent⟩
          obtain ⟨octets, hsent, hnone⟩ := publishEvent_failed fresh hout hev hrun
          have htaken : takenOver [(ev, status)] = [] := by
            simp [takenOver, hnot]
          refine ⟨octets, closing, by rw [hclosing, hsent], ?_, ?_⟩
          · rw [htaken]
            exact Nat.zero_le _
          · intro rounds _
            rw [htaken, hnone]
            exact ⟨rfl, fun _ => List.nil_prefix⟩

/-! ## Keys that are too long -/

/-- An event whose key AMQP cannot carry is taken over, and read with another key and other flags. -/
theorem publishEvent_longKey {out : Outbound} {exchangeName : CString} (hout : out.Admits exchangeName)
    {ev : Event} (hlong : ¬ ev.KeyFits) (hmsg : ev.msg.strlen < 2 ^ 64) (props : Members PropertyClass.basic.layout)
    {s s' : Socket} (hrun : publishEvent out exchangeName props ev s = (.ok (), s')) :
    ∃ octets, s'.sent = s.sent ++ octets ∧ peerReads fresh octets =
      [{ eventPublication exchangeName ev with
        routingKey := ev.rk.bytes.take (ev.rk.strlen % 256)
        flags := [(strayFlags ev.rk.bytes).toNat.testBit 0, (strayFlags ev.rk.bytes).toNat.testBit 1] }] := by
  have hlength : 256 ≤ ev.rk.bytes.length := Nat.succ_le_of_lt (Nat.lt_of_not_le hlong)
  have hpublishable : Publishable out exchangeName.bytes (cutKey ev.rk.bytes)
      (basicProperties eventFlags (eventMembers props)) :=
    { event_publishable hout (show Event.Sendable ⟨.ofBytes [], ev.msg⟩ from ⟨Nat.zero_le _, hmsg⟩) props with
      hroutingKey := cutKey_length ev.rk.bytes }
  obtain ⟨octets, hsent, hparse⟩ := amqpBasicPublishOn_longKey fresh hlength hpublishable hrun
  refine ⟨octets, hsent, ?_⟩
  unfold peerReads
  rw [hparse]
  cases octets with
  | nil =>
      rw [parseStream_nil] at hparse
      cases hparse
  | cons u rest =>
      have hread := @publications_publish fresh out 1 exchangeName.bytes (cutKey ev.rk.bytes)
        ((strayFlags ev.rk.bytes).toNat.testBit 0) ((strayFlags ev.rk.bytes).toNat.testBit 1) eventFlags
        (eventMembers props) ev.msg.bytes hpublishable (eventMembers_keyed props) hmsg rest.length []
      rw [List.append_nil, eventMembers_read] at hread
      rw [List.length_cons, hread]
      cases rest.length <;> rfl

/-- Of the letter `a`, 256 times, nothing is left. It stands for the flag `mandatory`. -/
theorem publishEvent_longKey_letters :
    ∃ octets, peerReads (fun c => zeroMembers c.layout) octets =
      [{ eventPublication (.lit "canopsis.events") ⟨.ofBytes (List.replicate 256 97), .lit "text"⟩ with
        routingKey := []
        flags := [true, false] }] := by
  let ev : Event := ⟨.ofBytes (List.replicate 256 97), .lit "text"⟩
  let out : Outbound := ⟨300, List.replicate 300 0, List.length_replicate⟩
  let s : Socket := ⟨List.replicate 5 (.took 300), []⟩
  let props := zeroMembers PropertyClass.basic.layout
  have hreturned : returned (publishEvent out (.lit "canopsis.events") props ev s).1 = some 0 := by
    decide +kernel
  have hdone := (returned_nonneg hreturned).mp (by decide)
  have hrun : publishEvent out (.lit "canopsis.events") props ev s =
      (.ok (), (publishEvent out (.lit "canopsis.events") props ev s).2) := by
    rw [← hdone]
  have hlong : ¬ ev.rk.strlen ≤ shortstrMax := by decide +kernel
  have hout : out.Admits (.lit "canopsis.events") := ⟨by decide, by decide, by decide⟩
  obtain ⟨octets, _, hread⟩ := publishEvent_longKey (fun c => zeroMembers c.layout) hout hlong (by decide) props
    hrun
  have hcut : ev.rk.bytes.take (ev.rk.strlen % 256) = [] := by decide +kernel
  have hflags : [(strayFlags ev.rk.bytes).toNat.testBit 0, (strayFlags ev.rk.bytes).toNat.testBit 1] =
      [true, false] := by
    decide +kernel
  rw [hcut, hflags] at hread
  exact ⟨octets, hread⟩

/-! ## Closing behind a publication that failed -/

/-- The request of `amqp_channel_close` in `n2a_amqp_disconnect`. -/
def closeMethod : MethodCall :=
  ⟨.channelClose, ((200 : UInt16), (CString.lit "200").bytes, (0 : UInt16), (0 : UInt16), ())⟩

/-- The octets of that frame. -/
def closeOctets : Bytes := Frame.octets ⟨1, .method closeMethod⟩

theorem closeOctets_length : closeOctets.length = 22 := by decide +kernel

theorem closeOctets_end : closeOctets = closeOctets.take 21 ++ [amqpFrameEnd] := by decide +kernel

theorem fragments_single {usable : Nat} {body : Bytes} (hne : body ≠ []) (hfits : body.length ≤ usable) :
    fragments usable body.length body = [body] := by
  cases body with
  | nil => exact absurd rfl hne
  | cons u rest =>
      rw [List.length_cons, fragments, List.take_of_length_le hfits, List.drop_of_length_le hfits]
      · cases rest.length <;> rfl
      · exact List.cons_ne_nil u rest

/-- The octets of an event in front of a body that goes into one frame. -/
def eventFront (exchangeName : CString) (props : Members PropertyClass.basic.layout) (rk : CString)
    (size : Nat) : Bytes :=
  Frame.octets ⟨1, .method (publishMethod exchangeName.bytes rk.bytes false false)⟩ ++
    (Frame.octets ⟨1, .header (.ofNat size) (basicProperties eventFlags (eventMembers props))⟩ ++
      frameHeader amqpFrameBody 1 size)

theorem eventOctets_single {out : Outbound} (exchangeName : CString)
    (props : Members PropertyClass.basic.layout) (rk : CString) {body : Bytes} (hne : body ≠ [])
    (hfits : body.length ≤ out.usable) :
    eventOctets out exchangeName props rk body =
      eventFront exchangeName props rk body.length ++ (body ++ [amqpFrameEnd]) := by
  have hbody : Frame.octets ⟨1, .body body⟩ =
      frameHeader amqpFrameBody 1 body.length ++ (body ++ [amqpFrameEnd]) := rfl
  unfold eventOctets publishFrames eventFront
  rw [fragments_single hne hfits]
  simp only [List.map_cons, List.map_nil, List.flatMap_cons, List.flatMap_nil, List.append_nil,
    List.append_assoc, hbody]

/-- Where the last 22 octets of an event are missing, the frame that closes the channel is taken for
them. -/
theorem eventOctets_closed {out : Outbound} (exchangeName : CString)
    (props : Members PropertyClass.basic.layout) (rk : CString) {body : Bytes} (hlong : 21 ≤ body.length)
    (hfits : body.length ≤ out.usable) :
    (eventOctets out exchangeName props rk body).take
        ((eventOctets out exchangeName props rk body).length - 22) ++ closeOctets =
      eventOctets out exchangeName props rk (body.take (body.length - 21) ++ closeOctets.take 21) := by
  have hclose := closeOctets_length
  have hlength : (body.take (body.length - 21) ++ closeOctets.take 21).length = body.length := by
    simp only [List.length_append, List.length_take]
    omega
  have hne : body ≠ [] := List.ne_nil_of_length_pos (by omega)
  have hne' : body.take (body.length - 21) ++ closeOctets.take 21 ≠ [] :=
    List.ne_nil_of_length_pos (by omega)
  have hcut : (eventFront exchangeName props rk body.length ++ (body ++ [amqpFrameEnd])).length - 22 =
      (eventFront exchangeName props rk body.length).length + (body.length - 21) := by
    simp only [List.length_append, List.length_singleton]
    omega
  rw [eventOctets_single exchangeName props rk hne hfits,
    eventOctets_single exchangeName props rk hne' (hlength.trans_le hfits), hlength, hcut,
    List.take_length_add_append, List.take_append_of_le_length (Nat.sub_le _ _)]
  conv_lhs => rw [closeOctets_end]
  simp only [List.append_assoc]

theorem peerReads_eventOctets {out : Outbound} {exchangeName : CString} (hout : out.Admits exchangeName)
    {ev : Event} (hev : ev.Sendable) (props : Members PropertyClass.basic.layout) {body : Bytes}
    (hbody : body.length < 2 ^ 64) :
    peerReads fresh (eventOctets out exchangeName props ev.rk body) =
      [{ eventPublication exchangeName ev with
        message := ⟨basicProperties eventFlags (eventMembers (zeroMembers PropertyClass.basic.layout)), body⟩ }] := by
  have hsome := eventOctets_pos out exchangeName props ev.rk body
  obtain ⟨rounds, hrounds⟩ := Nat.exists_eq_succ_of_ne_zero (Nat.ne_of_gt hsome)
  have hread := publications_eventOctets fresh hout hev props hbody rounds []
  rw [List.append_nil, parseStream_nil] at hread
  unfold peerReads
  rw [hrounds, hread]
  cases rounds <;> rfl

/-- So a peer reads an event that nobody sent, when the channel is closed behind a publication whose
last 22 octets did not get out. -/
theorem publishEvent_closed {out : Outbound} {exchangeName : CString} (hout : out.Admits exchangeName)
    {ev : Event} (hev : ev.Sendable) (hlong : 21 ≤ ev.msg.strlen) (hfits : ev.msg.strlen ≤ out.usable)
    (props : Members PropertyClass.basic.layout) :
    peerReads fresh ((eventOctets out exchangeName props ev.rk ev.msg.bytes).take
        ((eventOctets out exchangeName props ev.rk ev.msg.bytes).length - 22) ++ closeOctets) =
      [{ eventPublication exchangeName ev with
        message := ⟨basicProperties eventFlags (eventMembers (zeroMembers PropertyClass.basic.layout)),
          ev.msg.bytes.take (ev.msg.strlen - 21) ++ closeOctets.take 21⟩ }] := by
  have hlength : (ev.msg.bytes.take (ev.msg.strlen - 21) ++ closeOctets.take 21).length ≤ ev.msg.strlen := by
    have hclose := closeOctets_length
    simp only [List.length_append, List.length_take]
    omega
  rw [eventOctets_closed exchangeName props ev.rk hlong hfits]
  exact peerReads_eventOctets fresh hout hev props (hlength.trans_lt hev.2)

/-! ## Whole runs -/

namespace State.Holds

variable {A : Prop} {o : Options} {w : Env} {P : Event → Prop} {s : State}

theorem step (hfile : A → w.file.AllSucceed) (hempty : P ⟨.ofBytes [], .ofBytes []⟩) (hs : s.amqp.Sound)
    (h : s.Holds A P) (op : Op) (hsent : ∀ ev ∈ sentEvents [op], P ev) : (s.step o w op).Holds A P := by
  cases op with
  | sendEvent ev => exact h.sendEvent hfile hempty hs (hsent ev List.mem_cons_self)
  | amqpCheck => exact h.quietSession (Session.Tried.refl s.amqp).check
  | amqpDisconnect => exact h.quietSession (Session.Tried.refl s.amqp).disconnect
  | toggleBlackout => exact h.quietSession (Session.Tried.refl s.amqp).toggleBlackout

theorem run (hfile : A → w.file.AllSucceed) (hempty : P ⟨.ofBytes [], .ofBytes []⟩) (hs : s.amqp.Sound)
    (h : s.Holds A P) (ops : List Op) (hsent : ∀ ev ∈ sentEvents ops, P ev) :
    (s.run o w ops).Holds A P := by
  induction ops generalizing s with
  | nil => exact h
  | cons op ops ih =>
      have hsplit : sentEvents (op :: ops) = sentEvents [op] ++ sentEvents ops := List.filterMap_append (l := [op])
      rw [hsplit] at hsent
      have hnow := h.step (o := o) hfile hempty hs op fun ev hev => hsent ev (List.mem_append_left _ hev)
      exact ih (State.step_sound hs op) hnow fun ev hev => hsent ev (List.mem_append_right _ hev)

end State.Holds

theorem Session.TriesOnly.attempts {P : Event → Prop} {s : Session} (h : s.TriesOnly P) (conn : Connection) :
    ∀ a ∈ s.attempts conn, P a.1 := by
  intro a ha
  obtain ⟨c, hc, hattempt⟩ := List.mem_filterMap.mp ha
  apply h c hc
  cases c with
  | basicPublish c exchangeName ev blackout status =>
      change (if c = some conn then some (ev, status) else none) = some a at hattempt
      split at hattempt
      · cases hattempt
        rfl
      · cases hattempt
  | _ => cases hattempt

/-- A connection whose frames are short, so that nothing much is left of a message in one of them. -/
def Outbound.short : Outbound := ⟨64, List.replicate 64 0, List.length_replicate⟩

/-- A socket that takes 20 octets at a time. -/
def Socket.slow : Socket := ⟨List.replicate 40 (.took 20), []⟩

end Neb2Amqp
