import Neb2Amqp.Librabbitmq.TableBounds

/-!
# Methods

`amqp_encode_method` and `amqp_decode_method` of amqp_framing.c. The two functions are one
`switch` over the method numbers each, with the same fields in the same order in every
case; here the order is a table, and both functions go through it field by field.
-/

namespace Neb2Amqp

open CLib

/-! ## Fields -/

inductive FieldType
  | octet
  | short
  | long
  | longlong
  | shortstr
  | longstr
  | table
  /-- As many boolean members, sent together in one octet. -/
  | bits (count : Nat)

/-- The C type of a member of a method. -/
def FieldType.Value : FieldType → Type
  | octet => UInt8
  | short => UInt16
  | long => UInt32
  | longlong => UInt64
  | shortstr => Bytes
  | longstr => Bytes
  | table => Table
  | bits count => { flags : List Bool // flags.length = count }

/-- `bit_buffer` after the members from number `bit` on. -/
def packBits (bit bitBuffer : Nat) : List Bool → Nat
  | [] => bitBuffer
  | flag :: rest => packBits (bit + 1) (if flag then bitBuffer ||| 1 <<< bit else bitBuffer) rest

/-- The first `count` members out of `bit_buffer`. -/
def unpackBits (bitBuffer count : Nat) : List Bool :=
  (List.range count).map fun bit => bitBuffer &&& 1 <<< bit ≠ 0

theorem unpackBits_length (bitBuffer count : Nat) : (unpackBits bitBuffer count).length = count := by
  simp [unpackBits]

def encodeField : (t : FieldType) → t.Value → AmqpEncoder
  | .octet, v => amqpEncode8 .badAmqpData v
  | .short, v => amqpEncode16 .badAmqpData v
  | .long, v => amqpEncode32 .badAmqpData v
  | .longlong, v => amqpEncode64 .badAmqpData v
  | .shortstr, v => amqpEncodeShortstr .badAmqpData v
  | .longstr, v => amqpEncodeLongstr .badAmqpData v
  | .table, v => amqpEncodeTable v
  | .bits _, v => amqpEncode8 .badAmqpData (.ofNat (packBits 0 0 v.1))

def decodeField : (t : FieldType) → AmqpDecoder t.Value
  | .octet => amqpDecode8
  | .short => amqpDecode16
  | .long => amqpDecode32
  | .longlong => amqpDecode64
  | .shortstr => amqpDecodeShortstr
  | .longstr => amqpDecodeLongstr
  | .table => amqpDecodeTable
  | .bits count => amqpDecode8.map fun bitBuffer =>
      ⟨unpackBits bitBuffer.toNat count, unpackBits_length bitBuffer.toNat count⟩

/-- The members of a method in the order of its `struct`. -/
def Args : List FieldType → Type
  | [] => Unit
  | t :: rest => t.Value × Args rest

def encodeFields : (layout : List FieldType) → Args layout → AmqpEncoder
  | [], _ => .nothing
  | t :: rest, args => (encodeField t args.1).append (encodeFields rest args.2)

def decodeFields : (layout : List FieldType) → AmqpDecoder (Args layout)
  | [] => .pure ()
  | t :: rest => (decodeField t).bind fun v => (decodeFields rest).map fun args => (v, args)

/-! ## The methods -/

/-- The methods that both functions know. -/
inductive Method
  | connectionStart
  | connectionStartOk
  | connectionSecure
  | connectionSecureOk
  | connectionTune
  | connectionTuneOk
  | connectionOpen
  | connectionOpenOk
  | connectionClose
  | connectionCloseOk
  | channelOpen
  | channelOpenOk
  | channelFlow
  | channelFlowOk
  | channelClose
  | channelCloseOk
  | accessRequest
  | accessRequestOk
  | exchangeDeclare
  | exchangeDeclareOk
  | exchangeDelete
  | exchangeDeleteOk
  | exchangeBind
  | exchangeBindOk
  | exchangeUnbind
  | exchangeUnbindOk
  | queueDeclare
  | queueDeclareOk
  | queueBind
  | queueBindOk
  | queuePurge
  | queuePurgeOk
  | queueDelete
  | queueDeleteOk
  | queueUnbind
  | queueUnbindOk
  | basicQos
  | basicQosOk
  | basicConsume
  | basicConsumeOk
  | basicCancel
  | basicCancelOk
  | basicPublish
  | basicReturn
  | basicDeliver
  | basicGet
  | basicGetOk
  | basicGetEmpty
  | basicAck
  | basicReject
  | basicRecoverAsync
  | basicRecover
  | basicRecoverOk
  | basicNack
  | txSelect
  | txSelectOk
  | txCommit
  | txCommitOk
  | txRollback
  | txRollbackOk
  | confirmSelect
  | confirmSelectOk
  deriving DecidableEq

namespace Method

def id : Method → UInt32
  | connectionStart => 0x000A000A
  | connectionStartOk => 0x000A000B
  | connectionSecure => 0x000A0014
  | connectionSecureOk => 0x000A0015
  | connectionTune => 0x000A001E
  | connectionTuneOk => 0x000A001F
  | connectionOpen => 0x000A0028
  | connectionOpenOk => 0x000A0029
  | connectionClose => 0x000A0032
  | connectionCloseOk => 0x000A0033
  | channelOpen => 0x0014000A
  | channelOpenOk => 0x0014000B
  | channelFlow => 0x00140014
  | channelFlowOk => 0x00140015
  | channelClose => 0x00140028
  | channelCloseOk => 0x00140029
  | accessRequest => 0x001E000A
  | accessRequestOk => 0x001E000B
  | exchangeDeclare => 0x0028000A
  | exchangeDeclareOk => 0x0028000B
  | exchangeDelete => 0x00280014
  | exchangeDeleteOk => 0x00280015
  | exchangeBind => 0x0028001E
  | exchangeBindOk => 0x0028001F
  | exchangeUnbind => 0x00280028
  | exchangeUnbindOk => 0x00280033
  | queueDeclare => 0x0032000A
  | queueDeclareOk => 0x0032000B
  | queueBind => 0x00320014
  | queueBindOk => 0x00320015
  | queuePurge => 0x0032001E
  | queuePurgeOk => 0x0032001F
  | queueDelete => 0x00320028
  | queueDeleteOk => 0x00320029
  | queueUnbind => 0x00320032
  | queueUnbindOk => 0x00320033
  | basicQos => 0x003C000A
  | basicQosOk => 0x003C000B
  | basicConsume => 0x003C0014
  | basicConsumeOk => 0x003C0015
  | basicCancel => 0x003C001E
  | basicCancelOk => 0x003C001F
  | basicPublish => 0x003C0028
  | basicReturn => 0x003C0032
  | basicDeliver => 0x003C003C
  | basicGet => 0x003C0046
  | basicGetOk => 0x003C0047
  | basicGetEmpty => 0x003C0048
  | basicAck => 0x003C0050
  | basicReject => 0x003C005A
  | basicRecoverAsync => 0x003C0064
  | basicRecover => 0x003C006E
  | basicRecoverOk => 0x003C006F
  | basicNack => 0x003C0078
  | txSelect => 0x005A000A
  | txSelectOk => 0x005A000B
  | txCommit => 0x005A0014
  | txCommitOk => 0x005A0015
  | txRollback => 0x005A001E
  | txRollbackOk => 0x005A001F
  | confirmSelect => 0x0055000A
  | confirmSelectOk => 0x0055000B

/-- The members and, where there are several, their names. -/
def layout : Method → List FieldType
  | connectionStart =>
      -- version_major, version_minor, server_properties, mechanisms, locales
      [.octet, .octet, .table, .longstr, .longstr]
  | connectionStartOk =>
      -- client_properties, mechanism, response, locale
      [.table, .shortstr, .longstr, .shortstr]
  | connectionSecure => [.longstr]
  | connectionSecureOk => [.longstr]
  | connectionTune => [.short, .long, .short]  -- channel_max, frame_max, heartbeat
  | connectionTuneOk => [.short, .long, .short]  -- channel_max, frame_max, heartbeat
  | connectionOpen => [.shortstr, .shortstr, .bits 1]  -- virtual_host, capabilities, insist
  | connectionOpenOk => [.shortstr]
  | connectionClose => [.short, .shortstr, .short, .short]  -- reply_code, reply_text, class_id, method_id
  | connectionCloseOk => []
  | channelOpen => [.shortstr]
  | channelOpenOk => [.longstr]
  | channelFlow => [.bits 1]
  | channelFlowOk => [.bits 1]
  | channelClose => [.short, .shortstr, .short, .short]  -- reply_code, reply_text, class_id, method_id
  | channelCloseOk => []
  | accessRequest => [.shortstr, .bits 5]  -- realm, exclusive passive active write read
  | accessRequestOk => [.short]
  | exchangeDeclare =>
      -- ticket, exchange, type, passive durable auto_delete internal nowait, arguments
      [.short, .shortstr, .shortstr, .bits 5, .table]
  | exchangeDeclareOk => []
  | exchangeDelete => [.short, .shortstr, .bits 2]  -- ticket, exchange, if_unused nowait
  | exchangeDeleteOk => []
  | exchangeBind =>
      -- ticket, destination, source, routing_key, nowait, arguments
      [.short, .shortstr, .shortstr, .shortstr, .bits 1, .table]
  | exchangeBindOk => []
  | exchangeUnbind =>
      -- ticket, destination, source, routing_key, nowait, arguments
      [.short, .shortstr, .shortstr, .shortstr, .bits 1, .table]
  | exchangeUnbindOk => []
  | queueDeclare =>
      -- ticket, queue, passive durable exclusive auto_delete nowait, arguments
      [.short, .shortstr, .bits 5, .table]
  | queueDeclareOk => [.shortstr, .long, .long]  -- queue, message_count, consumer_count
  | queueBind =>
      -- ticket, queue, exchange, routing_key, nowait, arguments
      [.short, .shortstr, .shortstr, .shortstr, .bits 1, .table]
  | queueBindOk => []
  | queuePurge => [.short, .shortstr, .bits 1]  -- ticket, queue, nowait
  | queuePurgeOk => [.long]
  | queueDelete => [.short, .shortstr, .bits 3]  -- ticket, queue, if_unused if_empty nowait
  | queueDeleteOk => [.long]
  | queueUnbind =>
      -- ticket, queue, exchange, routing_key, arguments
      [.short, .shortstr, .shortstr, .shortstr, .table]
  | queueUnbindOk => []
  | basicQos => [.long, .short, .bits 1]  -- prefetch_size, prefetch_count, global
  | basicQosOk => []
  | basicConsume =>
      -- ticket, queue, consumer_tag, no_local no_ack exclusive nowait, arguments
      [.short, .shortstr, .shortstr, .bits 4, .table]
  | basicConsumeOk => [.shortstr]
  | basicCancel => [.shortstr, .bits 1]  -- consumer_tag, nowait
  | basicCancelOk => [.shortstr]
  | basicPublish =>
      -- ticket, exchange, routing_key, mandatory immediate
      [.short, .shortstr, .shortstr, .bits 2]
  | basicReturn => [.short, .shortstr, .shortstr, .shortstr]  -- reply_code, reply_text, exchange, routing_key
  | basicDeliver =>
      -- consumer_tag, delivery_tag, redelivered, exchange, routing_key
      [.shortstr, .longlong, .bits 1, .shortstr, .shortstr]
  | basicGet => [.short, .shortstr, .bits 1]  -- ticket, queue, no_ack
  | basicGetOk =>
      -- delivery_tag, redelivered, exchange, routing_key, message_count
      [.longlong, .bits 1, .shortstr, .shortstr, .long]
  | basicGetEmpty => [.shortstr]
  | basicAck => [.longlong, .bits 1]  -- delivery_tag, multiple
  | basicReject => [.longlong, .bits 1]  -- delivery_tag, requeue
  | basicRecoverAsync => [.bits 1]
  | basicRecover => [.bits 1]
  | basicRecoverOk => []
  | basicNack => [.longlong, .bits 2]  -- delivery_tag, multiple requeue
  | txSelect => []
  | txSelectOk => []
  | txCommit => []
  | txCommitOk => []
  | txRollback => []
  | txRollbackOk => []
  | confirmSelect => [.bits 1]
  | confirmSelectOk => []

def all : List Method :=
  [connectionStart, connectionStartOk, connectionSecure, connectionSecureOk, connectionTune,
    connectionTuneOk, connectionOpen, connectionOpenOk, connectionClose, connectionCloseOk,
    channelOpen, channelOpenOk, channelFlow, channelFlowOk, channelClose, channelCloseOk,
    accessRequest, accessRequestOk, exchangeDeclare, exchangeDeclareOk, exchangeDelete,
    exchangeDeleteOk, exchangeBind, exchangeBindOk, exchangeUnbind, exchangeUnbindOk, queueDeclare,
    queueDeclareOk, queueBind, queueBindOk, queuePurge, queuePurgeOk, queueDelete, queueDeleteOk,
    queueUnbind, queueUnbindOk, basicQos, basicQosOk, basicConsume, basicConsumeOk, basicCancel,
    basicCancelOk, basicPublish, basicReturn, basicDeliver, basicGet, basicGetOk, basicGetEmpty,
    basicAck, basicReject, basicRecoverAsync, basicRecover, basicRecoverOk, basicNack, txSelect,
    txSelectOk, txCommit, txCommitOk, txRollback, txRollbackOk, confirmSelect, confirmSelectOk]

/-- The case of the `switch` for a method number. -/
def ofId (methodNumber : UInt32) : Option Method := all.find? fun m => m.id = methodNumber

theorem ofId_id (m : Method) : ofId m.id = some m := by
  cases m <;> decide

end Method

/-- `amqp_method_t`: a method with its members. -/
structure MethodCall where
  method : Method
  args : Args method.layout

def amqpEncodeMethod (m : MethodCall) : AmqpEncoder := encodeFields m.method.layout m.args

def amqpDecodeMethod (methodNumber : UInt32) : AmqpDecoder MethodCall :=
  match Method.ofId methodNumber with
  | some m => (decodeFields m.layout).map fun args => ⟨m, args⟩
  | none => .fail (.failed .unknownMethod)

end Neb2Amqp
