import Neb2Amqp.Librabbitmq.Clone
import Neb2Amqp.Librabbitmq.Publish
import Neb2Amqp.Librabbitmq.Rpc

/-!
# Logging in

`amqp_login_inner` of amqp_socket.c, without heartbeats and with no properties of the client's
own. The size of a frame is agreed on in it, and a login that succeeds leaves a connection on which
something of a body fits into a frame.
-/

namespace Neb2Amqp

open CLib

variable (fresh : ∀ c : PropertyClass, Members c.layout)

/-- Protocol 0-9-1. -/
def protocolHeader : Bytes := (CString.lit "AMQP").bytes ++ [0, 0, 9, 1]

/-- `sasl_response` for the method `PLAIN`. -/
def saslResponse (username password : CString) : Bytes :=
  0 :: (username.bytes ++ 0 :: password.bytes)

/-- `default_properties`. -/
def defaultProperties : Table :=
  .cons (CString.lit "product").bytes (.utf8 (CString.lit "rabbitmq-c").bytes)
    (.cons (CString.lit "information").bytes
      (.utf8 (CString.lit "See https://github.com/alanxz/rabbitmq-c").bytes) .nil)

def startOk (username password : CString) : MethodCall :=
  ⟨.connectionStartOk, (defaultProperties, (CString.lit "PLAIN").bytes, saslResponse username password,
    (CString.lit "en_US").bytes, ())⟩

def openMethod (vhost : CString) : MethodCall :=
  ⟨.connectionOpen, (vhost.bytes, ([] : Bytes), ⟨[true], rfl⟩, ())⟩

/-- A limit of the server's that is 0 is none. -/
def negotiate (server client : Int32) : Int32 := if server ≠ 0 ∧ server < client then server else client

/-- The members that `amqp_tune_connection` sets. -/
structure Tuned where
  channelMax : Int32
  outbound : Outbound

/-- No memory is found for 0 octets, nor for a negative size, which is converted to a huge one. -/
def amqpTuneConnection (channelMax frameMax : Int32) : Except WireFault Tuned :=
  if frameMax ≤ 0 then .error (.status .noMemory)
  else .ok ⟨channelMax, frameMax.toNatClampNeg, List.replicate frameMax.toNatClampNeg 0, List.length_replicate⟩

/-- The server's first method. Its properties are kept as a copy. -/
def awaitStart (r : Receiver) : Except WireFault Receiver :=
  match amqpSimpleWaitMethod fresh 0 .connectionStart r with
  | .error fault => .error fault
  | .ok (start, r) =>
      let versionMajor : UInt8 := start.1
      let versionMinor : UInt8 := start.2.1
      let serverProperties : Table := start.2.2.1
      if versionMajor ≠ 0 ∨ versionMinor ≠ 9 then .error (.status .incompatibleAmqpVersion)
      else match amqpTableClone serverProperties with
        | .error fault => .error fault
        | .ok _ => .ok r

/-- The answer to connection.tune, and the connection with it. -/
def tune (channelMax frameMax : Int32) (serverChannelMax : UInt16) (serverFrameMax : UInt32)
    (serverHeartbeat : UInt16) : Except WireFault (Tuned × MethodCall) :=
  let channelMax := negotiate serverChannelMax.toUInt32.toInt32 channelMax
  let frameMax := negotiate serverFrameMax.toInt32 frameMax
  let heartbeat := negotiate serverHeartbeat.toUInt32.toInt32 0
  match amqpTuneConnection channelMax frameMax with
  | .error fault => .error fault
  | .ok tuned =>
      .ok (tuned, ⟨.connectionTuneOk, (channelMax.toUInt32.toUInt16, frameMax.toUInt32,
        heartbeat.toUInt32.toUInt16, ())⟩)

def awaitTune (channelMax frameMax : Int32) (r : Receiver) : Except WireFault (Tuned × MethodCall × Receiver) :=
  match amqpSimpleWaitMethod fresh 0 .connectionTune r with
  | .error fault => .error fault
  | .ok (s, r) =>
      match tune channelMax frameMax s.1 s.2.1 s.2.2.1 with
      | .error fault => .error fault
      | .ok (tuned, tuneOk) => .ok (tuned, tuneOk, r)

inductive LoginReply
  | normal (tuned : Tuned) (r : Receiver)
  | serverException (m : MethodCall) (r : Receiver)
  | libraryException (fault : WireFault)

/-- The part of the login behind connection.start-ok. -/
def finishLogin (vhost : CString) (channelMax frameMax : Int32) (r : Receiver) (s : Socket) :
    LoginReply × Socket :=
  match awaitTune fresh channelMax frameMax r with
  | .error fault => (.libraryException fault, s)
  | .ok (tuned, tuneOk, r) =>
      match amqpSendMethod tuned.outbound.buffer 0 tuneOk s with
      | (.error fault, s) => (.libraryException fault, s)
      | (.ok (), s) =>
          match amqpSimpleRpc fresh tuned.outbound.buffer 0 (openMethod vhost) [.connectionOpenOk] r s with
          | (.normal _ r, s) => (.normal tuned r, s)
          | (.serverException m r, s) => (.serverException m r, s)
          | (.libraryException fault, s) => (.libraryException fault, s)

/-- The first method goes through the buffer that the connection had before it was tuned. -/
def amqpLoginInner (outbound : Outbound) (vhost : CString) (channelMax frameMax : Int32)
    (username password : CString) (r : Receiver) (s : Socket) : LoginReply × Socket :=
  match amqpTcpSocketSendInner protocolHeader s with
  | (.error fault, s) => (.libraryException fault, s)
  | (.ok (), s) =>
      match awaitStart fresh r with
      | .error fault => (.libraryException fault, s)
      | .ok r =>
          match amqpSendMethod outbound.buffer 0 (startOk username password) s with
          | (.error fault, s) => (.libraryException fault, s)
          | (.ok (), s) => finishLogin fresh vhost channelMax frameMax r s

/-! ## What a wait for a method takes -/

section

variable {r : Receiver} (h : r.inbound.Waiting) (hqueue : r.queue = [])

include h hqueue

theorem amqpSimpleWaitMethod_ok {channel : UInt16} {method : Method} {args : Args method.layout}
    {r' : Receiver} (hok : amqpSimpleWaitMethod fresh channel method r = .ok (args, r')) :
    r.frames fresh = ⟨channel, .method ⟨method, args⟩⟩ :: r'.frames fresh ∧ r'.inbound.Waiting ∧
      r'.queue = [] := by
  have hmeets := waitFrameInner_meets fresh h
  unfold amqpSimpleWaitMethod amqpSimpleWaitFrame at hok
  simp only [hqueue] at hok
  unfold WaitMeets at hmeets
  cases hwait : waitFrameInner fresh r with
  | error fault =>
      rw [hwait] at hok
      cases hok
  | ok result =>
      obtain ⟨⟨frameChannel, payload⟩, last⟩ := result
      rw [hwait] at hok hmeets
      obtain ⟨hkept, hwaiting, hframes, _⟩ := hmeets
      dsimp only at hok
      cases payload with
      | method m =>
          dsimp only at hok
          split at hok
          · rename_i hboth
            obtain ⟨hchannel, hmethod⟩ := hboth
            obtain ⟨m, margs⟩ := m
            subst hchannel
            subst hmethod
            cases hok
            exact ⟨hframes, hwaiting, hkept.trans hqueue⟩
          · cases hok
      | _ => cases hok

end

/-! ## What a login leaves -/

theorem amqpSendMethod_ok {buffer : Bytes} {channel : UInt16} {m : MethodCall} {s s' : Socket}
    (h : amqpSendMethod buffer channel m s = (.ok (), s')) :
    s'.sent = s.sent ++ Frame.octets ⟨channel, .method m⟩ ∧
      (m.octets ≠ [] → headerSize + 4 + m.octets.length + footerSize ≤ buffer.length) := by
  have hemits := emits_amqpSendFrameOn buffer (f := ⟨channel, .method m⟩) fun _ _ h => by cases h
  refine ⟨hemits.all h, ?_⟩
  intro hne
  unfold amqpSendMethod amqpSendFrameOn amqpSendFrame at h
  by_cases hsmall : buffer.length < headerSize
  · simp only [hsmall, if_true] at h
    cases h
  · simp only [hsmall, if_false] at h
    cases hencoded : encodePayload buffer 4 (amqpEncodeMethod m) with
    | error fault =>
        rw [hencoded] at h
        cases h
    | ok encoded => exact (encodePayload_ok (encodes_amqpEncodeMethod m) hencoded).2 hne

theorem affects_frame {replies : List Method} {frame : Frame} {m : MethodCall}
    (h : affects 0 replies frame = some m) : frame = ⟨0, .method m⟩ := by
  obtain ⟨channel, payload⟩ := frame
  unfold affects at h
  cases payload with
  | method m' =>
      dsimp only at h
      split at h
      · rename_i hcases
        cases h
        rcases hcases with ⟨hchannel, _⟩ | ⟨hchannel, _⟩
        · rw [hchannel]
        · rw [hchannel]
      · cases h
  | _ => cases h

theorem awaitStart_ok {r r' : Receiver} (h : r.inbound.Waiting) (hqueue : r.queue = [])
    (hok : awaitStart fresh r = .ok r') :
    ∃ start, r.frames fresh = ⟨0, .method ⟨.connectionStart, start⟩⟩ :: r'.frames fresh ∧
      r'.inbound.Waiting ∧ r'.queue = [] := by
  unfold awaitStart at hok
  cases hwait : amqpSimpleWaitMethod fresh 0 .connectionStart r with
  | error fault =>
      rw [hwait] at hok
      cases hok
  | ok result =>
      obtain ⟨start, r''⟩ := result
      have hstart := amqpSimpleWaitMethod_ok fresh h hqueue hwait
      rw [hwait] at hok
      dsimp only at hok
      split at hok
      · cases hok
      · split at hok
        · cases hok
        · cases hok
          exact ⟨start, hstart⟩

theorem awaitTune_ok {channelMax frameMax : Int32} {r r' : Receiver} {tuned : Tuned} {tuneOk : MethodCall}
    (h : r.inbound.Waiting) (hqueue : r.queue = [])
    (hok : awaitTune fresh channelMax frameMax r = .ok (tuned, tuneOk, r')) :
    ∃ s : Args Method.connectionTune.layout,
      r.frames fresh = ⟨0, .method ⟨.connectionTune, s⟩⟩ :: r'.frames fresh ∧
        tune channelMax frameMax s.1 s.2.1 s.2.2.1 = .ok (tuned, tuneOk) ∧ r'.inbound.Waiting ∧ r'.queue = [] := by
  unfold awaitTune at hok
  cases hwait : amqpSimpleWaitMethod fresh 0 .connectionTune r with
  | error fault =>
      rw [hwait] at hok
      cases hok
  | ok result =>
      obtain ⟨s, r''⟩ := result
      obtain ⟨hframes, hwaiting, hempty⟩ := amqpSimpleWaitMethod_ok fresh h hqueue hwait
      rw [hwait] at hok
      dsimp only at hok
      cases htune : tune channelMax frameMax s.1 s.2.1 s.2.2.1 with
      | error fault =>
          rw [htune] at hok
          cases hok
      | ok pair =>
          rw [htune] at hok
          cases hok
          exact ⟨s, hframes, htune, hwaiting, hempty⟩

theorem toInt_of_uint16 (x : UInt16) : x.toUInt32.toInt32.toInt = x.toNat := by
  have hlt := x.toNat_lt
  have hvalue : x.toUInt32.toInt32 = Int32.ofNat x.toNat := by
    apply Int32.toBitVec_inj.mp
    apply BitVec.eq_of_toNat_eq
    simp
  rw [hvalue, Int32.toInt_ofNat_of_lt (by omega)]

theorem toUInt32_of_pos {x : Int32} (h : 0 < x.toInt) : x.toUInt32 = .ofNat x.toNatClampNeg := by
  have hvalue := toNat_toUInt32 (Int.le_of_lt h)
  have hlt := x.toInt_lt
  have hnat : x.toNatClampNeg = x.toInt.toNat := rfl
  have hsize : UInt32.size = 4294967296 := rfl
  apply UInt32.toNat_inj.mp
  rw [UInt32.toNat_ofNat_of_lt' (by omega)]
  omega

/-- The smaller limit, where 0 of the server's is none. -/
def agreed (server client : Int) : Int := if server = 0 then client else min server client

theorem negotiate_toInt (server client : Int32) :
    (negotiate server client).toInt = agreed server.toInt client.toInt := by
  have hzero : (0 : Int32).toInt = 0 := by decide
  unfold negotiate agreed
  by_cases hnone : server = 0
  · rw [if_neg fun h => h.1 hnone, hnone, hzero, if_pos rfl]
  · have hvalue : server.toInt ≠ 0 := fun h => hnone (Int32.toInt_inj.mp (h.trans hzero.symm))
    rw [if_neg hvalue]
    by_cases hless : server < client
    · rw [if_pos ⟨hnone, hless⟩, min_eq_left (Int.le_of_lt (Int32.lt_iff_toInt_lt.mp hless))]
    · rw [if_neg fun h => hless h.2, min_eq_right (Int32.le_iff_toInt_le.mp (Int32.not_lt.mp hless))]

theorem negotiate_heartbeat (heartbeat : UInt16) :
    (negotiate heartbeat.toUInt32.toInt32 0).toUInt32.toUInt16 = 0 := by
  have hlow : ¬ heartbeat.toUInt32.toInt32 < 0 := by
    rw [Int32.not_lt, Int32.le_iff_toInt_le, toInt_of_uint16]
    exact Int.natCast_nonneg _
  rw [negotiate, if_neg fun h => hlow h.2]
  rfl

/-- The size of a frame is the smaller one of what the two ends can do, and the server is told. -/
theorem tune_ok {channelMax frameMax : Int32} {serverChannelMax serverHeartbeat : UInt16}
    {serverFrameMax : UInt32} {tuned : Tuned} {tuneOk : MethodCall}
    (h : tune channelMax frameMax serverChannelMax serverFrameMax serverHeartbeat = .ok (tuned, tuneOk)) :
    (tuned.outbound.frameMax : Int) = agreed serverFrameMax.toInt32.toInt frameMax.toInt ∧
      tuned.channelMax.toInt = agreed serverChannelMax.toNat channelMax.toInt ∧
      tuneOk = ⟨.connectionTuneOk,
        (tuned.channelMax.toUInt32.toUInt16, .ofNat tuned.outbound.frameMax, (0 : UInt16), ())⟩ := by
  unfold tune amqpTuneConnection at h
  dsimp only at h
  rw [negotiate_heartbeat] at h
  by_cases hnone : negotiate serverFrameMax.toInt32 frameMax ≤ 0
  · rw [if_pos hnone] at h
    cases h
  · rw [if_neg hnone] at h
    cases h
    have hpos := Int32.lt_iff_toInt_lt.mp (Int32.not_le.mp hnone)
    have hsize : ((negotiate serverFrameMax.toInt32 frameMax).toNatClampNeg : Int) =
        (negotiate serverFrameMax.toInt32 frameMax).toInt :=
      Int.toNat_of_nonneg (Int.le_of_lt hpos)
    refine ⟨hsize.trans (negotiate_toInt _ _), ?_, ?_⟩
    · exact (negotiate_toInt _ _).trans (congrArg (agreed · _) (toInt_of_uint16 _))
    · rw [← toUInt32_of_pos hpos]

theorem openMethod_octets_length (vhost : CString) : (openMethod vhost).octets.length = vhost.strlen + 3 := by
  simp [openMethod, MethodCall.octets, Method.layout, argsOctets, fieldOctets, CString.strlen]
  omega

theorem amqpSimpleRpc_normal {buffer : Bytes} {channel : UInt16} {request m : MethodCall}
    {replies : List Method} {r r' : Receiver} {s s' : Socket} (h : r.inbound.Waiting)
    (hrpc : amqpSimpleRpc fresh buffer channel request replies r s = (.normal m r', s')) :
    amqpSendMethod buffer channel request s = (.ok (), s') ∧ m.method ∈ replies ∧
      r.Answered fresh channel replies m r' := by
  have hmeets := awaitReply_meets fresh channel replies h
  unfold amqpSimpleRpc at hrpc
  cases hsend : amqpSendMethod buffer channel request s with
  | mk result s1 =>
      rw [hsend] at hrpc
      cases result with
      | error fault => cases hrpc
      | ok =>
          cases hreply : awaitReply fresh channel replies (r.octets + 1) r with
          | error fault =>
              rw [hreply] at hrpc
              cases hrpc
          | ok reply =>
              obtain ⟨method, r''⟩ := reply
              rw [hreply] at hrpc hmeets
              dsimp only at hrpc
              by_cases hin : method.method ∈ replies
              · rw [if_pos hin] at hrpc
                cases hrpc
                exact ⟨rfl, hin, hmeets⟩
              · rw [if_neg hin] at hrpc
                cases hrpc

/-- What the part of a login behind connection.start-ok took from the server and sent to it. -/
structure Finished (vhost : CString) (channelMax frameMax : Int32) (r : Receiver) (s : Socket)
    (tuned : Tuned) (r' : Receiver) (s' : Socket) : Prop where
  dialogue : ∃ (server : Args Method.connectionTune.layout) (openOk : Args Method.connectionOpenOk.layout),
    r.frames fresh = ⟨0, .method ⟨.connectionTune, server⟩⟩ ::
        (r'.queue ++ ⟨0, .method ⟨.connectionOpenOk, openOk⟩⟩ :: r'.frames fresh) ∧
      (tuned.outbound.frameMax : Int) =
        agreed (UInt32.toInt32 server.2.1).toInt frameMax.toInt ∧
      tuned.channelMax.toInt = agreed (UInt16.toNat server.1) channelMax.toInt
  sent : s'.sent = s.sent ++
    ([⟨0, .method ⟨.connectionTuneOk, (tuned.channelMax.toUInt32.toUInt16,
        .ofNat tuned.outbound.frameMax, (0 : UInt16), ())⟩⟩,
      ⟨0, .method (openMethod vhost)⟩] : List Frame).flatMap Frame.octets
  room : vhost.strlen + 15 ≤ tuned.outbound.frameMax
  waiting : r'.inbound.Waiting

theorem finishLogin_normal {vhost : CString} {channelMax frameMax : Int32} {r r' : Receiver} {s s' : Socket}
    {tuned : Tuned} (h : r.inbound.Waiting) (hqueue : r.queue = [])
    (hlogin : finishLogin fresh vhost channelMax frameMax r s = (.normal tuned r', s')) :
    Finished fresh vhost channelMax frameMax r s tuned r' s' := by
  unfold finishLogin at hlogin
  split at hlogin
  · cases hlogin
  · rename_i tuned' tuneOk r1 htune
    obtain ⟨server, hframes, htuned, hwaiting, hempty⟩ := awaitTune_ok fresh h hqueue htune
    split at hlogin
    · cases hlogin
    · rename_i s1 htuneOk
      have hsentTune := (amqpSendMethod_ok htuneOk).1
      split at hlogin
      · rename_i m r2 s2 hrpc
        cases hlogin
        obtain ⟨hopen, hm, ⟨before, frame, hlater, _, hframe, hkept⟩, hlast⟩ :=
          amqpSimpleRpc_normal fresh hwaiting hrpc
        obtain ⟨hsentOpen, hroom⟩ := amqpSendMethod_ok hopen
        have hlength := openMethod_octets_length vhost
        have hne : (openMethod vhost).octets ≠ [] := by
          intro hnil
          rw [hnil] at hlength
          cases hlength
        have hfits := hroom hne
        rw [tuned.outbound.hbuffer, hlength] at hfits
        obtain ⟨method, args⟩ := m
        have hmethod : method = .connectionOpenOk := List.mem_singleton.mp hm
        subst hmethod
        rw [hempty, List.nil_append] at hkept
        obtain ⟨hframeMax, hchannelMax, htold⟩ := tune_ok htuned
        refine ⟨⟨server, args, ?_, hframeMax, hchannelMax⟩, ?_, ?_, hlast⟩
        · rw [hframes, hlater, affects_frame hframe, hkept]
        · rw [hsentOpen, hsentTune, htold]
          simp [List.append_assoc]
        · unfold headerSize footerSize at hfits
          omega
      · cases hlogin
      · cases hlogin

/-- A login that succeeds went on after what it sent. -/
theorem sent_of_normal {x : Except WireFault Unit × Socket} {next : Socket → LoginReply × Socket}
    {tuned : Tuned} {r' : Receiver} {s' : Socket}
    (h : (match x with
      | (.error fault, s) => (.libraryException fault, s)
      | (.ok (), s) => next s) = (LoginReply.normal tuned r', s')) :
    ∃ s, x = (.ok (), s) ∧ next s = (.normal tuned r', s') := by
  obtain ⟨result, s⟩ := x
  cases result with
  | error fault => cases h
  | ok done => exact ⟨s, rfl, h⟩

/-- A login that succeeds has taken the three methods of the server in their order and sent the
protocol header and three methods. The size of a frame is the smaller one of the two ends, and has
room for more than the frame itself. -/
theorem amqpLoginInner_normal {outbound : Outbound} {vhost : CString} {channelMax frameMax : Int32}
    {username password : CString} {r r' : Receiver} {s s' : Socket} {tuned : Tuned}
    (h : r.inbound.Waiting) (hqueue : r.queue = [])
    (hlogin : amqpLoginInner fresh outbound vhost channelMax frameMax username password r s =
      (.normal tuned r', s')) :
    ∃ (start : Args Method.connectionStart.layout) (r1 : Receiver) (s1 : Socket),
      r.frames fresh = ⟨0, .method ⟨.connectionStart, start⟩⟩ :: r1.frames fresh ∧
        s1.sent = s.sent ++ protocolHeader ++ Frame.octets ⟨0, .method (startOk username password)⟩ ∧
        Finished fresh vhost channelMax frameMax r1 s1 tuned r' s' := by
  unfold amqpLoginInner at hlogin
  obtain ⟨s1, hheader, hlogin⟩ := sent_of_normal hlogin
  cases hstart : awaitStart fresh r with
  | error fault =>
      rw [hstart] at hlogin
      cases hlogin
  | ok r1 =>
      rw [hstart] at hlogin
      dsimp only at hlogin
      obtain ⟨start, hframes, hwaiting, hempty⟩ := awaitStart_ok fresh h hqueue hstart
      obtain ⟨s2, hstartOk, hlogin⟩ := sent_of_normal hlogin
      refine ⟨start, r1, s2, hframes, ?_, finishLogin_normal fresh hwaiting hempty hlogin⟩
      rw [(amqpSendMethod_ok hstartOk).1, (emits_amqpTcpSocketSendInner protocolHeader).all hheader]

/-- What a server sends that accepts everything, and frames of 200 octets. -/
def acceptingServer : List Frame :=
  [⟨0, .method ⟨.connectionStart, ((0 : UInt8), (9 : UInt8), Table.nil, (CString.lit "PLAIN").bytes,
      (CString.lit "en_US").bytes, ())⟩⟩,
    ⟨0, .method ⟨.connectionTune, ((0 : UInt16), (200 : UInt32), (0 : UInt16), ())⟩⟩,
    ⟨0, .method ⟨.connectionOpenOk, ([], ())⟩⟩]

/-- What the client of that server can do is 300. -/
def guestLogin : LoginReply × Socket :=
  amqpLoginInner (fun c => zeroMembers c.layout) ⟨300, List.replicate 300 0, List.length_replicate⟩
    (.lit "/") 0 300 (.lit "guest") (.lit "guest") ⟨.new, acceptingServer.flatMap Frame.octets, [], []⟩
    ⟨List.replicate 4 (.took 300), []⟩

theorem amqpLoginInner_normal_guest :
    ∃ tuned r' s', guestLogin = (.normal tuned r', s') ∧ 16 ≤ tuned.outbound.frameMax ∧
      tuned.outbound.frameMax = 200 := by
  have hwaiting : Inbound.Waiting .new := show 0 < 8 by decide
  have hqueue : (Receiver.mk .new (acceptingServer.flatMap Frame.octets) [] []).queue = [] := rfl
  have hdone : (match guestLogin.1 with
      | .normal tuned _ => decide (tuned.outbound.frameMax = 200)
      | _ => false) = true := by
    decide +kernel
  cases hlogin : guestLogin with
  | mk reply s' =>
      rw [hlogin] at hdone
      cases reply with
      | normal tuned r' =>
          obtain ⟨_, _, _, _, _, hfinished⟩ :=
            amqpLoginInner_normal (fun c => zeroMembers c.layout) hwaiting hqueue hlogin
          exact ⟨tuned, r', s', rfl, hfinished.room, of_decide_eq_true hdone⟩
      | serverException m r => cases hdone
      | libraryException fault => cases hdone

end Neb2Amqp
