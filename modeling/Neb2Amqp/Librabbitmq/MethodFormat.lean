import Mathlib.Data.Nat.Bitwise
import Neb2Amqp.Librabbitmq.Methods

/-!
# The format of methods

The octets of a method are the octets of its members. Encoding writes them, decoding with
the method's number reads the same members back, and nothing a peer sends keeps the decoder
running or takes it out of the buffer.
-/

namespace Neb2Amqp

open CLib

/-! ## Booleans -/

theorem testBit_packBits (bit bitBuffer i : Nat) (flags : List Bool) :
    (packBits bit bitBuffer flags).testBit i =
      (bitBuffer.testBit i || (decide (bit ≤ i) && flags.getD (i - bit) false)) := by
  induction flags generalizing bit bitBuffer with
  | nil => simp [packBits]
  | cons flag rest ih =>
      have hstep : (if flag then bitBuffer ||| 1 <<< bit else bitBuffer).testBit i =
          (bitBuffer.testBit i || (flag && decide (bit = i))) := by
        cases flag <;> simp [Nat.one_shiftLeft, Nat.testBit_two_pow]
      rw [packBits, ih, hstep]
      rcases Nat.lt_trichotomy bit i with hlt | heq | hgt
      · have hsucc : i - bit = i - (bit + 1) + 1 := by omega
        have hne : bit ≠ i := by omega
        simp [hsucc, hne, Nat.le_of_lt hlt, Nat.succ_le_of_lt hlt]
      · subst heq
        simp
      · have hne : bit ≠ i := by omega
        have hle : ¬ bit ≤ i := by omega
        have hle' : ¬ bit + 1 ≤ i := by omega
        simp [hne, hle, hle']

theorem packBits_lt {flags : List Bool} (h : flags.length ≤ 8) : packBits 0 0 flags < 256 := by
  apply Nat.lt_pow_two_of_testBit (n := 8)
  intro i hi
  rw [testBit_packBits, List.getD_eq_default _ _ (by omega)]
  simp

theorem unpackBits_eq (bitBuffer count : Nat) :
    unpackBits bitBuffer count = (List.range count).map bitBuffer.testBit := by
  apply List.map_congr_left
  intro bit _
  rw [Nat.one_shiftLeft, Nat.and_two_pow]
  cases bitBuffer.testBit bit <;> simp

theorem unpackBits_packBits {flags : List Bool} {count : Nat} (h : flags.length = count) :
    unpackBits (packBits 0 0 flags) count = flags := by
  subst h
  rw [unpackBits_eq]
  apply List.ext_getElem
  · simp
  · intro i hleft hright
    simp [testBit_packBits, List.getElem?_eq_getElem hright]

/-! ## Members -/

/-- The octets of a member. -/
def fieldOctets : (t : FieldType) → t.Value → Bytes
  | .octet, v => bigEndian 1 (UInt8.toNat v)
  | .short, v => bigEndian 2 (UInt16.toNat v)
  | .long, v => bigEndian 4 (UInt32.toNat v)
  | .longlong, v => bigEndian 8 (UInt64.toNat v)
  | .shortstr, v => counted 1 v
  | .longstr, v => counted 4 v
  | .table, v => counted 4 (Table.octets v)
  | .bits _, v => bigEndian 1 (UInt8.ofNat (packBits 0 0 v.1)).toNat

/-- The member's length fits into the field it is sent in. -/
def fieldSized : (t : FieldType) → t.Value → Prop
  | .shortstr, v => List.length (α := UInt8) v < 256
  | .longstr, v => List.length (α := UInt8) v < 2 ^ 32
  | .table, v => Table.Sized v ∧ (Table.octets v).length < 2 ^ 32
  | .bits count, _ => count ≤ 8
  | _, _ => True

def argsOctets : (layout : List FieldType) → Args layout → Bytes
  | [], _ => []
  | t :: rest, args => fieldOctets t args.1 ++ argsOctets rest args.2

def argsSized : (layout : List FieldType) → Args layout → Prop
  | [], _ => True
  | t :: rest, args => fieldSized t args.1 ∧ argsSized rest args.2

theorem encodes_encodeField (t : FieldType) (v : t.Value) : Encodes (encodeField t v) (fieldOctets t v) := by
  cases t with
  | octet | bits => exact encodes_amqpEncode 1 _ _
  | short => exact encodes_amqpEncode 2 _ _
  | long => exact encodes_amqpEncode 4 _ _
  | longlong => exact encodes_amqpEncode 8 _ _
  | shortstr => exact encodes_amqpEncodeShortstr _ _
  | longstr => exact encodes_amqpEncodeLongstr _ _
  | table => exact encodes_amqpEncodeTable _

theorem decodes_decodeField {t : FieldType} {v : t.Value} (h : fieldSized t v) :
    Decodes (decodeField t) (fieldOctets t v) v := by
  cases t with
  | octet => exact decodes_amqpDecode8 v
  | short => exact decodes_amqpDecode16 v
  | long => exact decodes_amqpDecode32 v
  | longlong => exact decodes_amqpDecode64 v
  | shortstr => exact decodes_amqpDecodeShortstr h
  | longstr => exact decodes_amqpDecodeLongstr h
  | table => exact decodes_amqpDecodeTable h.1 h.2
  | bits count =>
      have hread := (decodes_amqpDecode8 (UInt8.ofNat (packBits 0 0 v.1))).map fun bitBuffer =>
        (⟨unpackBits bitBuffer.toNat count, unpackBits_length bitBuffer.toNat count⟩ :
          (FieldType.bits count).Value)
      have hflags : v.1.length ≤ 8 := Nat.le_trans (Nat.le_of_eq v.2) h
      have hnumber : (UInt8.ofNat (packBits 0 0 v.1)).toNat = packBits 0 0 v.1 :=
        UInt8.toNat_ofNat_of_lt' (packBits_lt hflags)
      have hback : unpackBits (UInt8.ofNat (packBits 0 0 v.1)).toNat count = v.1 := by
        rw [hnumber]
        exact unpackBits_packBits v.2
      have hvalue : (⟨unpackBits (UInt8.ofNat (packBits 0 0 v.1)).toNat count,
          unpackBits_length _ count⟩ : (FieldType.bits count).Value) = v := Subtype.ext hback
      rwa [hvalue] at hread

theorem takes_decodeField (t : FieldType) : (decodeField t).Takes 1 := by
  cases t with
  | octet => exact takes_amqpDecode8
  | short => exact takes_amqpDecode16.mono (by omega)
  | long => exact takes_amqpDecode32.mono (by omega)
  | longlong => exact takes_amqpDecode64.mono (by omega)
  | shortstr => exact takes_amqpDecodeShortstr
  | longstr => exact takes_amqpDecodeLongstr.mono (by omega)
  | table => exact takes_amqpDecodeTable.mono (by omega)
  | bits count => exact takes_amqpDecode8.map _

theorem ends_decodeField (t : FieldType) {buffer : Bytes} {start : Nat} :
    Decoder.Ends .badAmqpData (decodeField t) buffer start := by
  cases t with
  | octet => exact ends_amqpDecode8
  | short => exact ends_amqpDecode16
  | long => exact ends_amqpDecode32
  | longlong => exact ends_amqpDecode64
  | shortstr => exact ends_amqpDecodeShortstr
  | longstr => exact ends_amqpDecodeLongstr
  | table => exact ends_amqpDecodeTable
  | bits count => exact ends_amqpDecode8.map takes_amqpDecode8 _

/-! ## Methods -/

theorem encodes_encodeFields (layout : List FieldType) (args : Args layout) :
    Encodes (encodeFields layout args) (argsOctets layout args) := by
  induction layout with
  | nil => exact Encodes.nil
  | cons t rest ih => exact (encodes_encodeField t args.1).append (ih args.2)

theorem decodes_decodeFields {layout : List FieldType} {args : Args layout} (h : argsSized layout args) :
    Decodes (decodeFields layout) (argsOctets layout args) args := by
  induction layout with
  | nil => exact decodes_pure ()
  | cons t rest ih =>
      have hrest := (ih h.2).map fun more => ((args.1, more) : Args (t :: rest))
      exact (decodes_decodeField h.1).bind hrest

theorem takes_decodeFields (layout : List FieldType) : (decodeFields layout).Takes 0 := by
  induction layout with
  | nil => exact Decoder.takes_pure ()
  | cons t rest ih => exact ((takes_decodeField t).bind fun v => ih.map _).mono (Nat.zero_le _)

theorem ends_decodeFields (layout : List FieldType) {buffer : Bytes} {start : Nat} :
    Decoder.Ends .badAmqpData (decodeFields layout) buffer start := by
  induction layout generalizing start with
  | nil => exact Decoder.ends_pure ()
  | cons t rest ih =>
      exact (ends_decodeField t).bind (takes_decodeField t) fun v => ih.map (takes_decodeFields rest) _

namespace MethodCall

/-- The octets of a method behind its number. -/
def octets (m : MethodCall) : Bytes := argsOctets m.method.layout m.args

def Sized (m : MethodCall) : Prop := argsSized m.method.layout m.args

end MethodCall

theorem encodes_amqpEncodeMethod (m : MethodCall) : Encodes (amqpEncodeMethod m) m.octets :=
  encodes_encodeFields m.method.layout m.args

theorem decodes_amqpDecodeMethod {m : MethodCall} (h : m.Sized) :
    Decodes (amqpDecodeMethod m.method.id) m.octets m := by
  unfold amqpDecodeMethod
  rw [Method.ofId_id]
  exact (decodes_decodeFields h).map fun args => MethodCall.mk m.method args

end Neb2Amqp
