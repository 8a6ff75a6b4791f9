import Neb2Amqp.Librabbitmq.Table

/-!
# The format of field tables

What a table looks like on the wire, as a function of the table. The encoder writes
exactly this, wherever it is given the room, and the decoder reads the table back from it.
Sizes that their length fields cannot hold are cut by the encoder, so reading back needs
them to fit.
-/

namespace Neb2Amqp

open CLib

mutual

/-- The octets of a value, its kind first. -/
def FieldValue.octets : FieldValue → Bytes
  | .boolean v => FieldKind.boolean.code :: bigEndian 1 (if v then 1 else 0)
  | .i8 v => FieldKind.i8.code :: bigEndian 1 v.toUInt8.toNat
  | .u8 v => FieldKind.u8.code :: bigEndian 1 v.toNat
  | .i16 v => FieldKind.i16.code :: bigEndian 2 v.toUInt16.toNat
  | .u16 v => FieldKind.u16.code :: bigEndian 2 v.toNat
  | .i32 v => FieldKind.i32.code :: bigEndian 4 v.toUInt32.toNat
  | .u32 v => FieldKind.u32.code :: bigEndian 4 v.toNat
  | .i64 v => FieldKind.i64.code :: bigEndian 8 v.toUInt64.toNat
  | .u64 v => FieldKind.u64.code :: bigEndian 8 v.toNat
  | .f32 bits => FieldKind.f32.code :: bigEndian 4 bits.toNat
  | .f64 bits => FieldKind.f64.code :: bigEndian 8 bits.toNat
  | .decimal decimals value =>
      FieldKind.decimal.code :: (bigEndian 1 decimals.toNat ++ bigEndian 4 value.toNat)
  | .utf8 v => FieldKind.utf8.code :: counted 4 v
  | .array entries => FieldKind.array.code :: counted 4 entries.octets
  | .timestamp v => FieldKind.timestamp.code :: bigEndian 8 v.toNat
  | .table entries => FieldKind.table.code :: counted 4 entries.octets
  | .void => [FieldKind.void.code]
  | .bytes v => FieldKind.bytes.code :: counted 4 v

def FieldArray.octets : FieldArray → Bytes
  | .nil => []
  | .cons value rest => value.octets ++ rest.octets

/-- The octets of the entries; the table itself has their count in front. -/
def Table.octets : Table → Bytes
  | .nil => []
  | .cons key value rest => counted 1 key ++ (value.octets ++ rest.octets)

end

mutual

/-- Every length fits into the field it is sent in. -/
def FieldValue.Sized : FieldValue → Prop
  | .utf8 v | .bytes v => v.length < 2 ^ 32
  | .array entries => entries.octets.length < 2 ^ 32 ∧ entries.Sized
  | .table entries => entries.octets.length < 2 ^ 32 ∧ entries.Sized
  | _ => True

def FieldArray.Sized : FieldArray → Prop
  | .nil => True
  | .cons value rest => value.Sized ∧ rest.Sized

def Table.Sized : Table → Prop
  | .nil => True
  | .cons key value rest => key.length < 256 ∧ value.Sized ∧ rest.Sized

end

/-! ## The encoder writes the format -/

theorem encodes_amqpEncodeSized {entries : AmqpEncoder} {b : Bytes} (h : Encodes entries b) :
    Encodes (amqpEncodeSized entries) (counted 4 b) := by
  have hsize := encodes_amqpEncode 4 .tableTooBig (UInt32.ofNat b.length).toNat
  have hlen : bigEndian 4 (UInt32.ofNat b.length).toNat = bigEndian 4 b.length :=
    bigEndian_mod 4 b.length
  rw [hlen] at hsize
  exact h.sized hsize (bigEndian_length 4 b.length) (by omega)

theorem kindOctet (k : FieldKind) : bigEndian 1 k.code.toNat = [k.code] := by
  cases k <;> decide

theorem encodes_kind {w : AmqpEncoder} {b : Bytes} (k : FieldKind) (h : Encodes w b) :
    Encodes ((amqpEncode8 .badAmqpData k.code).append w) (k.code :: b) := by
  have hkind := encodes_amqpEncode 1 .badAmqpData k.code.toNat
  rw [kindOctet] at hkind
  exact hkind.append h

mutual

theorem encodes_amqpEncodeFieldValue (v : FieldValue) : Encodes (amqpEncodeFieldValue v) v.octets := by
  cases v with
  | boolean v => cases v <;> exact encodes_kind .boolean (encodes_amqpEncode 1 _ _)
  | i8 v => exact encodes_kind .i8 (encodes_amqpEncode 1 _ _)
  | u8 v => exact encodes_kind .u8 (encodes_amqpEncode 1 _ _)
  | i16 v => exact encodes_kind .i16 (encodes_amqpEncode 2 _ _)
  | u16 v => exact encodes_kind .u16 (encodes_amqpEncode 2 _ _)
  | i32 v => exact encodes_kind .i32 (encodes_amqpEncode 4 _ _)
  | u32 v => exact encodes_kind .u32 (encodes_amqpEncode 4 _ _)
  | i64 v => exact encodes_kind .i64 (encodes_amqpEncode 8 _ _)
  | u64 v => exact encodes_kind .u64 (encodes_amqpEncode 8 _ _)
  | f32 bits => exact encodes_kind .f32 (encodes_amqpEncode 4 _ _)
  | f64 bits => exact encodes_kind .f64 (encodes_amqpEncode 8 _ _)
  | decimal decimals value =>
      exact encodes_kind .decimal ((encodes_amqpEncode 1 _ _).append (encodes_amqpEncode 4 _ _))
  | utf8 v => exact encodes_kind .utf8 (encodes_amqpEncodeLongstr _ v)
  | array entries =>
      exact encodes_kind .array (encodes_amqpEncodeSized (encodes_encodeElements entries))
  | timestamp v => exact encodes_kind .timestamp (encodes_amqpEncode 8 _ _)
  | table entries =>
      exact encodes_kind .table (encodes_amqpEncodeSized (encodes_encodeEntries entries))
  | void => exact encodes_kind .void Encodes.nil
  | bytes v => exact encodes_kind .bytes (encodes_amqpEncodeLongstr _ v)

theorem encodes_encodeElements (a : FieldArray) : Encodes (encodeElements a) a.octets := by
  cases a with
  | nil => exact Encodes.nil
  | cons value rest =>
      exact (encodes_amqpEncodeFieldValue value).append (encodes_encodeElements rest)

theorem encodes_encodeEntries (t : Table) : Encodes (encodeEntries t) t.octets := by
  cases t with
  | nil => exact Encodes.nil
  | cons key value rest =>
      exact (encodes_amqpEncodeShortstr _ key).append
        ((encodes_amqpEncodeFieldValue value).append (encodes_encodeEntries rest))

end

theorem encodes_amqpEncodeTable (t : Table) : Encodes (amqpEncodeTable t) (counted 4 t.octets) :=
  encodes_amqpEncodeSized (encodes_encodeEntries t)

/-! ## The decoder reads it back -/

theorem FieldValue.octets_ne_nil (v : FieldValue) : v.octets ≠ [] := by
  cases v <;> simp [FieldValue.octets]

theorem decodes_kind {depth : Nat} {b : Bytes} {v : FieldValue} (k : FieldKind)
    (h : Decodes (decodeCase (decodeElements depth) (decodeEntries depth) (some k)) b v) :
    Decodes (decodeFieldValue (depth + 1)) (k.code :: b) v := by
  have hkind := decodes_amqpDecode8 k.code
  rw [kindOctet] at hkind
  rw [← FieldKind.ofCode_code] at h
  unfold decodeFieldValue
  exact hkind.bind h

theorem decodes_amqpDecodeSized {α : Type} {r : Nat → AmqpDecoder α} {b : Bytes} {a : α} (hsize : b.length < 2 ^ 32)
    (h : Decodes (Decoder.limited b.length r) b a) :
    Decodes (amqpDecodeSized r) (counted 4 b) a := by
  have hlen : (UInt32.ofNat b.length).toNat = b.length := UInt32.toNat_ofNat_of_lt' hsize
  have hnumber := decodes_amqpDecode32 (UInt32.ofNat b.length)
  rw [hlen] at hnumber
  apply hnumber.bind
  rwa [hlen]

mutual

theorem decodes_decodeFieldValue (v : FieldValue) (depth : Nat) (hsized : v.Sized)
    (hdepth : 2 * v.octets.length ≤ depth) : Decodes (decodeFieldValue depth) v.octets v := by
  cases depth with
  | zero =>
      have hpos := List.length_pos_iff.mpr v.octets_ne_nil
      omega
  | succ depth =>
      cases v with
      | boolean v =>
          apply decodes_kind .boolean
          have hread := (decodes_amqpDecode8 (if v then 1 else 0)).map fun val => FieldValue.boolean (val ≠ 0)
          cases v <;> exact hread
      | i8 v =>
          apply decodes_kind .i8
          have hread := (decodes_amqpDecode8 v.toUInt8).map fun val => FieldValue.i8 val.toInt8
          rwa [Int8.toInt8_toUInt8] at hread
      | u8 v => exact decodes_kind .u8 ((decodes_amqpDecode8 v).map FieldValue.u8)
      | i16 v =>
          apply decodes_kind .i16
          have hread := (decodes_amqpDecode16 v.toUInt16).map fun val => FieldValue.i16 val.toInt16
          rwa [Int16.toInt16_toUInt16] at hread
      | u16 v => exact decodes_kind .u16 ((decodes_amqpDecode16 v).map FieldValue.u16)
      | i32 v =>
          apply decodes_kind .i32
          have hread := (decodes_amqpDecode32 v.toUInt32).map fun val => FieldValue.i32 val.toInt32
          rwa [Int32.toInt32_toUInt32] at hread
      | u32 v => exact decodes_kind .u32 ((decodes_amqpDecode32 v).map FieldValue.u32)
      | i64 v =>
          apply decodes_kind .i64
          have hread := (decodes_amqpDecode64 v.toUInt64).map fun val => FieldValue.i64 val.toInt64
          rwa [Int64.toInt64_toUInt64] at hread
      | u64 v => exact decodes_kind .u64 ((decodes_amqpDecode64 v).map FieldValue.u64)
      | f32 bits => exact decodes_kind .f32 ((decodes_amqpDecode32 bits).map FieldValue.f32)
      | f64 bits => exact decodes_kind .f64 ((decodes_amqpDecode64 bits).map FieldValue.f64)
      | decimal decimals value =>
          have hvalue := (decodes_amqpDecode32 value).map (FieldValue.decimal decimals)
          have hboth : Decodes (amqpDecode8.bind fun d => amqpDecode32.map (FieldValue.decimal d)) _ _ :=
            (decodes_amqpDecode8 decimals).bind hvalue
          exact decodes_kind .decimal hboth
      | utf8 v => exact decodes_kind .utf8 ((decodes_amqpDecodeLongstr hsized).map FieldValue.utf8)
      | array entries =>
          have hlength : (FieldValue.array entries).octets.length = 1 + 4 + entries.octets.length := by
            rw [FieldValue.octets, List.length_cons, counted_length]
            omega
          have helements := decodes_decodeElements entries depth hsized.2 (by omega)
          exact decodes_kind .array ((decodes_amqpDecodeSized hsized.1 helements).map FieldValue.array)
      | timestamp v => exact decodes_kind .timestamp ((decodes_amqpDecode64 v).map FieldValue.timestamp)
      | table entries =>
          have hlength : (FieldValue.table entries).octets.length = 1 + 4 + entries.octets.length := by
            rw [FieldValue.octets, List.length_cons, counted_length]
            omega
          have hentries := decodes_decodeEntries entries depth hsized.2 (by omega)
          exact decodes_kind .table ((decodes_amqpDecodeSized hsized.1 hentries).map FieldValue.table)
      | void => exact decodes_kind .void (decodes_pure FieldValue.void)
      | bytes v => exact decodes_kind .bytes ((decodes_amqpDecodeLongstr hsized).map FieldValue.bytes)

theorem decodes_decodeElements (a : FieldArray) (depth : Nat) (hsized : a.Sized)
    (hdepth : 2 * a.octets.length + 1 ≤ depth) :
    Decodes (Decoder.limited a.octets.length (decodeElements depth)) a.octets a := by
  cases depth with
  | zero => omega
  | succ depth =>
      cases a with
      | nil => exact decodes_limited_nil _ FieldArray.nil
      | cons value rest =>
          have hpos := List.length_pos_iff.mpr value.octets_ne_nil
          have hlength : (FieldArray.cons value rest).octets.length =
              value.octets.length + rest.octets.length := by
            rw [FieldArray.octets, List.length_append]
          have hvalue := decodes_decodeFieldValue value depth hsized.1 (by omega)
          have hrest := decodes_decodeElements rest depth hsized.2 (by omega)
          have hround := hvalue.limited_bind
            (fun value limit => (decodeElements depth limit).map (FieldArray.cons value))
            (hrest.limited_map (FieldArray.cons value))
          exact hround.limited_before (by simp [value.octets_ne_nil])

theorem decodes_decodeEntries (t : Table) (depth : Nat) (hsized : t.Sized)
    (hdepth : 2 * t.octets.length + 1 ≤ depth) :
    Decodes (Decoder.limited t.octets.length (decodeEntries depth)) t.octets t := by
  cases depth with
  | zero => omega
  | succ depth =>
      cases t with
      | nil => exact decodes_limited_nil _ Table.nil
      | cons key value rest =>
          have hpos := List.length_pos_iff.mpr value.octets_ne_nil
          have hlength : (Table.cons key value rest).octets.length =
              1 + key.length + (value.octets.length + rest.octets.length) := by
            rw [Table.octets, List.length_append, List.length_append, counted_length]
          have hkey := decodes_amqpDecodeShortstr hsized.1
          have hvalue := decodes_decodeFieldValue value depth hsized.2.1 (by omega)
          have hrest := decodes_decodeEntries rest depth hsized.2.2 (by omega)
          have hbehind := hvalue.limited_bind
            (fun value limit => (decodeEntries depth limit).map (Table.cons key value))
            (hrest.limited_map (Table.cons key value))
          have hround := hkey.limited_bind (fun key limit => (decodeFieldValue depth).bind fun value =>
            (decodeEntries depth limit).map (Table.cons key value)) hbehind
          exact hround.limited_before (by simp [value.octets_ne_nil])

end

end Neb2Amqp
