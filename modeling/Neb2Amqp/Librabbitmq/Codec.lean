import Neb2Amqp.Library.Codec

/-!
# The base types on the wire

The encoders and decoders that amqp_private.h declares for the fixed-width numbers and for
byte strings. Each returns 1 or 0 in the source, and its callers turn the 0 into a status;
here an encoder is handed that status. A write that does not fit is given up by every
caller, so what it left in the buffer is not kept.
-/

namespace Neb2Amqp

open CLib

/-- The failures of `amqp_status_enum` that the wire code can return. -/
inductive AmqpStatus
  | noMemory
  | badAmqpData
  | unknownClass
  | unknownMethod
  | incompatibleAmqpVersion
  | connectionClosed
  | socketError
  | invalidParameter
  | tableTooBig
  | wrongMethod
  | unexpectedState
  deriving DecidableEq

namespace AmqpStatus

/-- The number that stands for it. -/
def code : AmqpStatus → Int32
  | noMemory => -0x0001
  | badAmqpData => -0x0002
  | unknownClass => -0x0003
  | unknownMethod => -0x0004
  | incompatibleAmqpVersion => -0x0006
  | connectionClosed => -0x0007
  | socketError => -0x0009
  | invalidParameter => -0x000A
  | tableTooBig => -0x000B
  | wrongMethod => -0x000C
  | unexpectedState => -0x0010

theorem code_neg (status : AmqpStatus) : status.code < 0 := by
  cases status <;> decide

end AmqpStatus

/-! ## Encoders -/

abbrev AmqpEncoder := Encoder AmqpStatus

/-- `amqp_encode_##bits` for a type of `width` bytes. -/
def amqpEncode (width : Nat) (status : AmqpStatus) (input : Nat) : AmqpEncoder :=
  Encoder.put status (bigEndian width input)

def amqpEncode8 (status : AmqpStatus) (input : UInt8) : AmqpEncoder := amqpEncode 1 status input.toNat

def amqpEncode16 (status : AmqpStatus) (input : UInt16) : AmqpEncoder := amqpEncode 2 status input.toNat

def amqpEncode32 (status : AmqpStatus) (input : UInt32) : AmqpEncoder := amqpEncode 4 status input.toNat

def amqpEncode64 (status : AmqpStatus) (input : UInt64) : AmqpEncoder := amqpEncode 8 status input.toNat

def amqpEncodeBytes (status : AmqpStatus) (input : Bytes) : AmqpEncoder := Encoder.put status input

theorem encodes_amqpEncode (width : Nat) (status : AmqpStatus) (input : Nat) :
    Encodes (amqpEncode width status input) (bigEndian width input) :=
  Encodes.put status (bigEndian width input)

theorem encodes_amqpEncodeBytes (status : AmqpStatus) (input : Bytes) :
    Encodes (amqpEncodeBytes status input) input :=
  Encodes.put status input

/-! ## Decoders -/

abbrev AmqpDecoder := Decoder (Halt AmqpStatus)

/-- `amqp_decode_##bits`. -/
def amqpDecode (width : Nat) : AmqpDecoder Nat :=
  (Decoder.take (.failed .badAmqpData) width).map bigEndianValue

def amqpDecode8 : AmqpDecoder UInt8 := (amqpDecode 1).map UInt8.ofNat

def amqpDecode16 : AmqpDecoder UInt16 := (amqpDecode 2).map UInt16.ofNat

def amqpDecode32 : AmqpDecoder UInt32 := (amqpDecode 4).map UInt32.ofNat

def amqpDecode64 : AmqpDecoder UInt64 := (amqpDecode 8).map UInt64.ofNat

def amqpDecodeBytes (len : Nat) : AmqpDecoder Bytes := Decoder.take (.failed .badAmqpData) len

theorem decodes_amqpDecode {width n : Nat} (h : n < 256 ^ width) :
    Decodes (amqpDecode width) (bigEndian width n) n := by
  have htake := decodes_take (Halt.failed AmqpStatus.badAmqpData) (bigEndian width n)
  rw [bigEndian_length] at htake
  have hread := htake.map bigEndianValue
  rwa [bigEndianValue_of_lt h] at hread

theorem decodes_amqpDecode8 (v : UInt8) : Decodes amqpDecode8 (bigEndian 1 v.toNat) v := by
  have hread := (decodes_amqpDecode (show v.toNat < 256 ^ 1 from v.toNat_lt)).map UInt8.ofNat
  rwa [UInt8.ofNat_toNat] at hread

theorem decodes_amqpDecode16 (v : UInt16) : Decodes amqpDecode16 (bigEndian 2 v.toNat) v := by
  have hread := (decodes_amqpDecode (show v.toNat < 256 ^ 2 from v.toNat_lt)).map UInt16.ofNat
  rwa [UInt16.ofNat_toNat] at hread

theorem decodes_amqpDecode32 (v : UInt32) : Decodes amqpDecode32 (bigEndian 4 v.toNat) v := by
  have hread := (decodes_amqpDecode (show v.toNat < 256 ^ 4 from v.toNat_lt)).map UInt32.ofNat
  rwa [UInt32.ofNat_toNat] at hread

theorem decodes_amqpDecode64 (v : UInt64) : Decodes amqpDecode64 (bigEndian 8 v.toNat) v := by
  have hread := (decodes_amqpDecode (show v.toNat < 256 ^ 8 from v.toNat_lt)).map UInt64.ofNat
  rwa [UInt64.ofNat_toNat] at hread

theorem decodes_amqpDecodeBytes (b : Bytes) : Decodes (amqpDecodeBytes b.length) b b :=
  decodes_take _ b

theorem takes_amqpDecode (width : Nat) : (amqpDecode width).Takes width :=
  (Decoder.takes_take _ width).map bigEndianValue

theorem takes_amqpDecode8 : amqpDecode8.Takes 1 := (takes_amqpDecode 1).map UInt8.ofNat

theorem takes_amqpDecode16 : amqpDecode16.Takes 2 := (takes_amqpDecode 2).map UInt16.ofNat

theorem takes_amqpDecode32 : amqpDecode32.Takes 4 := (takes_amqpDecode 4).map UInt32.ofNat

theorem takes_amqpDecode64 : amqpDecode64.Takes 8 := (takes_amqpDecode 8).map UInt64.ofNat

/-! ## Counted strings

Strings go behind their length. The length is converted to the type it is sent in. -/

def amqpEncodeShortstr (status : AmqpStatus) (input : Bytes) : AmqpEncoder :=
  (amqpEncode8 status (.ofNat input.length)).append (amqpEncodeBytes status input)

def amqpEncodeLongstr (status : AmqpStatus) (input : Bytes) : AmqpEncoder :=
  (amqpEncode32 status (.ofNat input.length)).append (amqpEncodeBytes status input)

def amqpDecodeShortstr : AmqpDecoder Bytes := amqpDecode8.bind fun len => amqpDecodeBytes len.toNat

def amqpDecodeLongstr : AmqpDecoder Bytes := amqpDecode32.bind fun len => amqpDecodeBytes len.toNat

/-- A string behind its length in `width` bytes. -/
def counted (width : Nat) (b : Bytes) : Bytes := bigEndian width b.length ++ b

@[simp] theorem counted_length (width : Nat) (b : Bytes) : (counted width b).length = width + b.length := by
  rw [counted, List.length_append, bigEndian_length]

theorem encodes_amqpEncodeShortstr (status : AmqpStatus) (input : Bytes) :
    Encodes (amqpEncodeShortstr status input) (counted 1 input) := by
  have hlen : bigEndian 1 (UInt8.ofNat input.length).toNat = bigEndian 1 input.length :=
    bigEndian_mod 1 input.length
  rw [counted, ← hlen]
  exact (encodes_amqpEncode 1 status _).append (encodes_amqpEncodeBytes status input)

theorem encodes_amqpEncodeLongstr (status : AmqpStatus) (input : Bytes) :
    Encodes (amqpEncodeLongstr status input) (counted 4 input) := by
  have hlen : bigEndian 4 (UInt32.ofNat input.length).toNat = bigEndian 4 input.length :=
    bigEndian_mod 4 input.length
  rw [counted, ← hlen]
  exact (encodes_amqpEncode 4 status _).append (encodes_amqpEncodeBytes status input)

theorem decodes_amqpDecodeShortstr {b : Bytes} (h : b.length < 256) :
    Decodes amqpDecodeShortstr (counted 1 b) b := by
  have hlen : (UInt8.ofNat b.length).toNat = b.length := UInt8.toNat_ofNat_of_lt' h
  have hnumber := decodes_amqpDecode8 (UInt8.ofNat b.length)
  rw [hlen] at hnumber
  apply hnumber.bind
  rw [hlen]
  exact decodes_amqpDecodeBytes b

theorem decodes_amqpDecodeLongstr {b : Bytes} (h : b.length < 2 ^ 32) :
    Decodes amqpDecodeLongstr (counted 4 b) b := by
  have hlen : (UInt32.ofNat b.length).toNat = b.length := UInt32.toNat_ofNat_of_lt' h
  have hnumber := decodes_amqpDecode32 (UInt32.ofNat b.length)
  rw [hlen] at hnumber
  apply hnumber.bind
  rw [hlen]
  exact decodes_amqpDecodeBytes b

theorem takes_amqpDecodeShortstr : amqpDecodeShortstr.Takes 1 :=
  takes_amqpDecode8.bind fun len => (Decoder.takes_take _ len.toNat).mono (Nat.zero_le _)

theorem takes_amqpDecodeLongstr : amqpDecodeLongstr.Takes 4 :=
  takes_amqpDecode32.bind fun len => (Decoder.takes_take _ len.toNat).mono (Nat.zero_le _)

end Neb2Amqp
