import Neb2Amqp.Librabbitmq.Codec

/-!
# Field tables

`amqp_encode_table` and `amqp_decode_table` of amqp_table.c. A table holds values, and a
value may be a table or an array again. The decoder is run with a bound on its depth;
every call of it takes a byte or ends a loop, so the bound that the entry point chooses
is never reached.
-/

namespace Neb2Amqp

open CLib

/-- `amqp_field_value_kind_t`. -/
inductive FieldKind
  | boolean
  | i8
  | u8
  | i16
  | u16
  | i32
  | u32
  | i64
  | u64
  | f32
  | f64
  | decimal
  | utf8
  | array
  | timestamp
  | table
  | void
  | bytes
  deriving DecidableEq

namespace FieldKind

def code : FieldKind → UInt8
  | boolean => 't'.toUInt8
  | i8 => 'b'.toUInt8
  | u8 => 'B'.toUInt8
  | i16 => 's'.toUInt8
  | u16 => 'u'.toUInt8
  | i32 => 'I'.toUInt8
  | u32 => 'i'.toUInt8
  | i64 => 'l'.toUInt8
  | u64 => 'L'.toUInt8
  | f32 => 'f'.toUInt8
  | f64 => 'd'.toUInt8
  | decimal => 'D'.toUInt8
  | utf8 => 'S'.toUInt8
  | array => 'A'.toUInt8
  | timestamp => 'T'.toUInt8
  | table => 'F'.toUInt8
  | void => 'V'.toUInt8
  | bytes => 'x'.toUInt8

/-- The cases of the `switch` over a kind that was read. -/
def all : List FieldKind :=
  [boolean, i8, u8, i16, u16, i32, u32, i64, u64, f32, f64, decimal, utf8, array, timestamp,
    table, void, bytes]

/-- The case that is taken, or none for the `default`. -/
def ofCode (kind : UInt8) : Option FieldKind := all.find? fun k => k.code = kind

theorem ofCode_code (k : FieldKind) : ofCode k.code = some k := by
  cases k <;> decide

end FieldKind

mutual

/-- `amqp_field_value_t`. The numbers of floating point are kept by their bits. -/
inductive FieldValue
  | boolean (v : Bool)
  | i8 (v : Int8)
  | u8 (v : UInt8)
  | i16 (v : Int16)
  | u16 (v : UInt16)
  | i32 (v : Int32)
  | u32 (v : UInt32)
  | i64 (v : Int64)
  | u64 (v : UInt64)
  | f32 (bits : UInt32)
  | f64 (bits : UInt64)
  | decimal (decimals : UInt8) (value : UInt32)
  | utf8 (v : Bytes)
  | array (entries : FieldArray)
  | timestamp (v : UInt64)
  | table (entries : Table)
  | void
  | bytes (v : Bytes)

/-- `amqp_array_t`. -/
inductive FieldArray
  | nil
  | cons (value : FieldValue) (rest : FieldArray)

/-- `amqp_table_t`. -/
inductive Table
  | nil
  | cons (key : Bytes) (value : FieldValue) (rest : Table)

end

def FieldValue.kind : FieldValue → FieldKind
  | boolean _ => .boolean
  | i8 _ => .i8
  | u8 _ => .u8
  | i16 _ => .i16
  | u16 _ => .u16
  | i32 _ => .i32
  | u32 _ => .u32
  | i64 _ => .i64
  | u64 _ => .u64
  | f32 _ => .f32
  | f64 _ => .f64
  | decimal .. => .decimal
  | utf8 _ => .utf8
  | array _ => .array
  | timestamp _ => .timestamp
  | table _ => .table
  | void => .void
  | bytes _ => .bytes

/-! ## The encoder -/

/-- The size in front, which is filled in last. -/
def amqpEncodeSized (entries : AmqpEncoder) : AmqpEncoder :=
  Encoder.sized 4 (fun size => amqpEncode32 .tableTooBig (.ofNat size)) entries

mutual

def amqpEncodeFieldValue (entry : FieldValue) : AmqpEncoder :=
  (amqpEncode8 .badAmqpData entry.kind.code).append
    (match entry with
      | .boolean v => amqpEncode8 .tableTooBig (if v then 1 else 0)
      | .i8 v => amqpEncode8 .tableTooBig v.toUInt8
      | .u8 v => amqpEncode8 .tableTooBig v
      | .i16 v => amqpEncode16 .tableTooBig v.toUInt16
      | .u16 v => amqpEncode16 .tableTooBig v
      | .i32 v => amqpEncode32 .tableTooBig v.toUInt32
      | .u32 v => amqpEncode32 .tableTooBig v
      | .i64 v => amqpEncode64 .tableTooBig v.toUInt64
      | .u64 v => amqpEncode64 .tableTooBig v
      | .f32 bits => amqpEncode32 .tableTooBig bits
      | .f64 bits => amqpEncode64 .tableTooBig bits
      | .decimal decimals value =>
          (amqpEncode8 .tableTooBig decimals).append (amqpEncode32 .tableTooBig value)
      | .utf8 v => amqpEncodeLongstr .tableTooBig v
      | .array entries => amqpEncodeSized (encodeElements entries)
      | .timestamp v => amqpEncode64 .tableTooBig v
      | .table entries => amqpEncodeSized (encodeEntries entries)
      | .void => .nothing
      | .bytes v => amqpEncodeLongstr .tableTooBig v)

/-- The loop of `amqp_encode_array`, which `amqpEncodeSized` makes that function of. -/
def encodeElements : FieldArray → AmqpEncoder
  | .nil => .nothing
  | .cons value rest => (amqpEncodeFieldValue value).append (encodeElements rest)

/-- The loop of `amqp_encode_table`. -/
def encodeEntries : Table → AmqpEncoder
  | .nil => .nothing
  | .cons key value rest =>
      (amqpEncodeShortstr .tableTooBig key).append
        ((amqpEncodeFieldValue value).append (encodeEntries rest))

end

def amqpEncodeTable (input : Table) : AmqpEncoder := amqpEncodeSized (encodeEntries input)

/-! ## The decoder -/

/-- The size in front, and a loop up to where it says. -/
def amqpDecodeSized {α : Type} (entries : Nat → AmqpDecoder α) : AmqpDecoder α :=
  amqpDecode32.bind fun size => Decoder.limited size.toNat entries

/-- The `switch` of `amqp_decode_field_value`, over the loops for what a value may hold. -/
def decodeCase (elements : Nat → AmqpDecoder FieldArray) (entries : Nat → AmqpDecoder Table) :
    Option FieldKind → AmqpDecoder FieldValue
  | some .boolean => amqpDecode8.map fun val => .boolean (val ≠ 0)
  | some .i8 => amqpDecode8.map fun val => .i8 val.toInt8
  | some .u8 => amqpDecode8.map .u8
  | some .i16 => amqpDecode16.map fun val => .i16 val.toInt16
  | some .u16 => amqpDecode16.map .u16
  | some .i32 => amqpDecode32.map fun val => .i32 val.toInt32
  | some .u32 => amqpDecode32.map .u32
  | some .i64 => amqpDecode64.map fun val => .i64 val.toInt64
  | some .u64 => amqpDecode64.map .u64
  | some .f32 => amqpDecode32.map .f32
  | some .f64 => amqpDecode64.map .f64
  | some .decimal => amqpDecode8.bind fun decimals => amqpDecode32.map (.decimal decimals)
  | some .utf8 => amqpDecodeLongstr.map .utf8
  | some .array => (amqpDecodeSized elements).map .array
  | some .timestamp => amqpDecode64.map .timestamp
  | some .table => (amqpDecodeSized entries).map .table
  | some .void => .pure .void
  | some .bytes => amqpDecodeLongstr.map .bytes
  | none => .fail (.failed .badAmqpData)

mutual

def decodeFieldValue : Nat → AmqpDecoder FieldValue
  | 0 => .fail .unfinished
  | depth + 1 => amqpDecode8.bind fun kind =>
      decodeCase (decodeElements depth) (decodeEntries depth) (FieldKind.ofCode kind)

/-- The loop of `amqp_decode_array`. The last value may end behind the limit. -/
def decodeElements : Nat → Nat → AmqpDecoder FieldArray
  | 0, _ => .fail .unfinished
  | depth + 1, limit => Decoder.before limit
      ((decodeFieldValue depth).bind fun value => (decodeElements depth limit).map (.cons value))
      .nil

/-- The loop of `amqp_decode_table`. The last entry may end behind the limit. -/
def decodeEntries : Nat → Nat → AmqpDecoder Table
  | 0, _ => .fail .unfinished
  | depth + 1, limit => Decoder.before limit
      (amqpDecodeShortstr.bind fun key => (decodeFieldValue depth).bind fun value =>
        (decodeEntries depth limit).map (.cons key value))
      .nil

end

/-- A depth that no buffer of this length needs. -/
def depthFor (encoded : Bytes) : Nat := 2 * encoded.length + 2

def amqpDecodeTable : AmqpDecoder Table := fun encoded =>
  amqpDecodeSized (decodeEntries (depthFor encoded)) encoded

end Neb2Amqp
