import Neb2Amqp.Librabbitmq.Peer

/-!
# Routing keys that are too long

`amqp_encode_method` writes the length of a routing key into one octet, and then all octets of
the key. Where they are more than 255 the frame is sent nevertheless. A peer takes what the one
octet says for the key, the octet behind it for the flags, and ignores the rest.
-/

namespace Neb2Amqp

open CLib

/-- What is left of a key. -/
def cutKey (key : Bytes) : Bytes := key.take (key.length % 256)

/-- The octet that is taken for the flags. -/
def strayFlags (key : Bytes) : UInt8 := key.getD (key.length % 256) 0

theorem cutKey_length (key : Bytes) : (cutKey key).length < 256 := by
  have hmod := Nat.mod_lt key.length (show 0 < 256 by decide)
  rw [cutKey, List.length_take]
  omega

section

variable {key : Bytes} (hlong : 256 ≤ key.length)

include hlong

theorem counted_long :
    ∃ rest, counted 1 key = counted 1 (cutKey key) ++ (bigEndian 1 (strayFlags key).toNat ++ rest) := by
  have hmod := Nat.mod_lt key.length (show 0 < 256 by decide)
  have hcut : (cutKey key).length = key.length % 256 := by
    rw [cutKey, List.length_take]
    omega
  have hcount : bigEndian 1 (key.length % 256) = bigEndian 1 key.length := bigEndian_mod 1 key.length
  have hbyte : bigEndian 1 (strayFlags key).toNat = [strayFlags key] := by
    simp [bigEndian]
  have hsplit : key.drop (key.length % 256) = strayFlags key :: key.drop (key.length % 256 + 1) := by
    rw [List.drop_eq_getElem_cons (by omega), strayFlags, List.getD_eq_getElem _ _ (by omega)]
  refine ⟨key.drop (key.length % 256 + 1), ?_⟩
  rw [counted, counted, hcut, hcount, hbyte, List.append_assoc, List.singleton_append, ← hsplit, cutKey,
    List.take_append_drop]

end

/-- The flags that an octet stands for. -/
def flagsOf (u : UInt8) : { flags : List Bool // flags.length = 2 } :=
  ⟨unpackBits u.toNat 2, unpackBits_length u.toNat 2⟩

/-- The method a peer reads instead. -/
def misreadMethod (exchange key : Bytes) : MethodCall :=
  ⟨.basicPublish, ((0 : UInt16), exchange, cutKey key, flagsOf (strayFlags key), ())⟩

theorem misreadMethod_eq (exchange key : Bytes) :
    misreadMethod exchange key = publishMethod exchange (cutKey key) ((strayFlags key).toNat.testBit 0)
      ((strayFlags key).toNat.testBit 1) := by
  unfold misreadMethod publishMethod flagsOf
  congr
  exact unpackBits_eq _ 2

theorem decodes_misreadMethod {exchange key : Bytes} (hexchange : exchange.length < 256) :
    Decodes (amqpDecodeMethod Method.basicPublish.id)
      (bigEndian 2 0 ++ (counted 1 exchange ++ (counted 1 (cutKey key) ++ (bigEndian 1 (strayFlags key).toNat ++ []))))
      (misreadMethod exchange key) := by
  have hflags : Decodes (decodeField (.bits 2)) (bigEndian 1 (strayFlags key).toNat) (flagsOf (strayFlags key)) :=
    (decodes_amqpDecode8 (strayFlags key)).map fun bitBuffer =>
      (⟨unpackBits bitBuffer.toNat 2, unpackBits_length bitBuffer.toNat 2⟩ : (FieldType.bits 2).Value)
  have hlast : Decodes (decodeFields [.bits 2]) (bigEndian 1 (strayFlags key).toNat ++ [])
      (flagsOf (strayFlags key), ()) :=
    hflags.bind ((decodes_pure ()).map fun more => ((flagsOf (strayFlags key), more) : Args [.bits 2]))
  have hkey : Decodes (decodeFields [.shortstr, .bits 2])
      (counted 1 (cutKey key) ++ (bigEndian 1 (strayFlags key).toNat ++ []))
      (cutKey key, flagsOf (strayFlags key), ()) :=
    (decodes_amqpDecodeShortstr (cutKey_length key)).bind
      (hlast.map fun more => ((cutKey key, more) : Args [.shortstr, .bits 2]))
  have hnames : Decodes (decodeFields [.shortstr, .shortstr, .bits 2])
      (counted 1 exchange ++ (counted 1 (cutKey key) ++ (bigEndian 1 (strayFlags key).toNat ++ [])))
      (exchange, cutKey key, flagsOf (strayFlags key), ()) :=
    (decodes_amqpDecodeShortstr hexchange).bind
      (hkey.map fun more => ((exchange, more) : Args [.shortstr, .shortstr, .bits 2]))
  have hall : Decodes (decodeFields Method.basicPublish.layout)
      (bigEndian 2 0 ++ (counted 1 exchange ++ (counted 1 (cutKey key) ++ (bigEndian 1 (strayFlags key).toNat ++ []))))
      ((0 : UInt16), exchange, cutKey key, flagsOf (strayFlags key), ()) :=
    (decodes_amqpDecode16 0).bind
      (hnames.map fun more => (((0 : UInt16), more) : Args [.short, .shortstr, .shortstr, .bits 2]))
  unfold amqpDecodeMethod
  rw [Method.ofId_id]
  exact Decodes.map hall fun args => MethodCall.mk Method.basicPublish args

/-! ## The message at the peer -/

variable (fresh : ∀ c : PropertyClass, Members c.layout)

theorem decodeFrame_longKey {exchange key : Bytes} (hexchange : exchange.length < 256) (hlong : 256 ≤ key.length)
    (channel : UInt16) (mandatory immediate : Bool) :
    decodeFrame fresh (Frame.octets ⟨channel, .method (publishMethod exchange key mandatory immediate)⟩)
        ((FramePayload.method (publishMethod exchange key mandatory immediate)).octets.length + 8) =
      .ok (some ⟨channel, .method (misreadMethod exchange key)⟩) := by
  obtain ⟨rest, hkey⟩ := counted_long hlong
  have hoctets : (publishMethod exchange key mandatory immediate).octets =
      bigEndian 2 0 ++ (counted 1 exchange ++ (counted 1 (cutKey key) ++ (bigEndian 1 (strayFlags key).toNat ++ []))) ++
        (rest ++ argsOctets [.bits 2] (⟨[mandatory, immediate], rfl⟩, ())) := by
    simp only [MethodCall.octets, publishMethod, Method.layout, argsOctets, fieldOctets, hkey, List.append_assoc,
      List.nil_append]
    rfl
  have hread := @decodes_misreadMethod exchange key hexchange []
    (rest ++ argsOctets [.bits 2] (⟨[mandatory, immediate], rfl⟩, ()))
  rw [List.nil_append, List.length_nil, ← hoctets] at hread
  have hid := numberAt_wholeFrame (show Method.basicPublish.id.toNat < 256 ^ 4 from Method.basicPublish.id.toNat_lt)
    amqpFrameMethod channel [] (publishMethod exchange key mandatory immediate).octets
  rw [List.length_nil, Nat.add_zero, List.nil_append] at hid
  have hdecoded := decodePayload_wholeFrame amqpFrameMethod channel (bigEndian 4 Method.basicPublish.id.toNat)
    (publishMethod exchange key mandatory immediate).octets hread
  rw [bigEndian_length] at hdecoded
  have hpayload : (FramePayload.method (publishMethod exchange key mandatory immediate)).octets =
      bigEndian 4 Method.basicPublish.id.toNat ++ (publishMethod exchange key mandatory immediate).octets := rfl
  have hmethod : decodeMethodPayload (wholeFrame amqpFrameMethod channel
      (FramePayload.method (publishMethod exchange key mandatory immediate)).octets)
        ((FramePayload.method (publishMethod exchange key mandatory immediate)).octets.length + 8) =
      .ok (.method (misreadMethod exchange key)) := by
    unfold decodeMethodPayload
    rw [hpayload, hid, UInt32.ofNat_toNat]
    simp only [hdecoded, Bind.bind, Except.bind]
    rfl
  unfold decodeFrame Frame.octets
  rw [wholeFrame_end, wholeFrame_type, wholeFrame_channel, if_neg (not_not_intro rfl)]
  simp only [FramePayload.frameType, if_true, hmethod]
  rfl

theorem amqpSendFrameOn_room {outbound : Bytes} {channel : UInt16} {m : MethodCall} (hm : m.octets ≠ [])
    {s s' : Socket} (h : amqpSendFrameOn outbound ⟨channel, .method m⟩ s = (.ok (), s')) :
    (FramePayload.method m).octets.length + 8 ≤ outbound.length := by
  unfold amqpSendFrameOn at h
  cases hpieces : amqpSendFrame outbound ⟨channel, .method m⟩ with
  | error fault =>
      rw [hpieces] at h
      cases h
  | ok pieces =>
      unfold amqpSendFrame at hpieces
      split at hpieces
      · cases hpieces
      · cases hencoded : encodePayload outbound 4 (amqpEncodeMethod m) with
        | error fault =>
            simp only [hencoded] at hpieces
            cases hpieces
        | ok encoded =>
            have hroom := (encodePayload_ok (encodes_amqpEncodeMethod m) hencoded).2 hm
            rw [FramePayload.octets, List.length_append, bigEndian_length]
            unfold headerSize footerSize at hroom
            omega

/-- A message with such a key that was taken over is another one at the peer: the one with what is left
of the key, and with the flags that stood in it. -/
theorem amqpBasicPublishOn_longKey {o : Outbound} {channel : UInt16} {exchange key : Bytes}
    {mandatory immediate : Bool} {properties : Properties} {body : Bytes} (hlong : 256 ≤ key.length)
    (h : Publishable o exchange (cutKey key) properties) {s s' : Socket}
    (hrun : amqpBasicPublishOn o channel exchange key mandatory immediate properties body s = (.ok (), s')) :
    ∃ out, s'.sent = s.sent ++ out ∧ parseStream fresh out =
      ((publishFrames o channel exchange (cutKey key) ((strayFlags key).toNat.testBit 0)
        ((strayFlags key).toNat.testBit 1) properties body).map (Frame.arrived fresh), .left []) := by
  have hsent := (emits_amqpBasicPublishOn h.hproperties).all hrun
  have hnamed : (publishMethod exchange key mandatory immediate).octets ≠ [] := by
    intro hnil
    have hlength := congrArg List.length hnil
    simp [MethodCall.octets, publishMethod, Method.layout, argsOctets, fieldOctets] at hlength
  have hroom : (FramePayload.method (publishMethod exchange key mandatory immediate)).octets.length + 8 ≤
      o.buffer.length := by
    rcases Attempt.andThen_cases hrun with ⟨t, hmethod, _⟩ | ⟨fault, hfault, _⟩
    · exact amqpSendFrameOn_room hnamed hmethod
    · cases hfault
  have hmax := h.hframeMax
  rw [o.hbuffer] at hroom
  have hparse := parseStream_wholeFrame fresh (show (FramePayload.method
      (publishMethod exchange key mandatory immediate)).octets.length < 2 ^ 32 - 8 by omega)
    (decodeFrame_longKey fresh h.hexchange hlong channel mandatory immediate)
  refine ⟨_, hsent, ?_⟩
  have hframes : ∀ f ∈ (publishFrames o channel exchange (cutKey key) ((strayFlags key).toNat.testBit 0)
      ((strayFlags key).toNat.testBit 1) properties body).tail, f.payload.Sized :=
    fun f hf => publishFrames_sized h f (List.mem_of_mem_tail hf)
  have hlater := parseStream_frames fresh hframes []
  rw [List.append_nil, parseStream_nil, List.append_nil] at hlater
  have hsplit : (publishFrames o channel exchange key mandatory immediate properties body).flatMap Frame.octets =
      Frame.octets ⟨channel, .method (publishMethod exchange key mandatory immediate)⟩ ++
        (publishFrames o channel exchange (cutKey key) ((strayFlags key).toNat.testBit 0)
          ((strayFlags key).toNat.testBit 1) properties body).tail.flatMap Frame.octets := List.flatMap_cons
  have hfirst := hparse ((publishFrames o channel exchange (cutKey key) ((strayFlags key).toNat.testBit 0)
    ((strayFlags key).toNat.testBit 1) properties body).tail.flatMap Frame.octets)
  rw [hlater] at hfirst
  rw [hsplit]
  refine hfirst.trans ?_
  rw [misreadMethod_eq]
  rfl

end Neb2Amqp
