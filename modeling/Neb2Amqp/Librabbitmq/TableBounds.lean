import Neb2Amqp.Librabbitmq.TableFormat

/-!
# Decoding what a peer sent

The decoder of field tables on octets that nobody vouches for: it comes to an end on every
input, and a table that it accepts lies inside the buffer. With what it writes and reads
for a table this module also has the round trip through the two entry points.
-/

namespace Neb2Amqp

open CLib

/-! ## Inside the buffer -/

theorem takes_amqpDecodeSized {α : Type} {entries : Nat → AmqpDecoder α}
    (h : ∀ limit, (entries limit).Takes 0) : (amqpDecodeSized entries).Takes 4 :=
  takes_amqpDecode32.bind fun size => Decoder.Takes.limited h size.toNat

theorem takes_decodeCase {elements : Nat → AmqpDecoder FieldArray} {entries : Nat → AmqpDecoder Table}
    (helements : ∀ limit, (elements limit).Takes 0) (hentries : ∀ limit, (entries limit).Takes 0)
    (kind : Option FieldKind) : (decodeCase elements entries kind).Takes 0 := by
  cases kind with
  | none => exact Decoder.takes_fail _ 0
  | some k =>
      cases k with
      | boolean | i8 | u8 => exact (takes_amqpDecode8.map _).mono (Nat.zero_le _)
      | i16 | u16 => exact (takes_amqpDecode16.map _).mono (Nat.zero_le _)
      | i32 | u32 | f32 => exact (takes_amqpDecode32.map _).mono (Nat.zero_le _)
      | i64 | u64 | f64 | timestamp => exact (takes_amqpDecode64.map _).mono (Nat.zero_le _)
      | decimal =>
          exact (takes_amqpDecode8.bind fun decimals => takes_amqpDecode32.map _).mono (Nat.zero_le _)
      | utf8 | bytes => exact (takes_amqpDecodeLongstr.map _).mono (Nat.zero_le _)
      | array => exact ((takes_amqpDecodeSized helements).map _).mono (Nat.zero_le _)
      | table => exact ((takes_amqpDecodeSized hentries).map _).mono (Nat.zero_le _)
      | void => exact Decoder.takes_pure _

theorem takes_decode (depth : Nat) :
    (decodeFieldValue depth).Takes 1 ∧ (∀ limit, (decodeElements depth limit).Takes 0) ∧
      ∀ limit, (decodeEntries depth limit).Takes 0 := by
  induction depth with
  | zero =>
      refine ⟨?_, ?_, ?_⟩
      · unfold decodeFieldValue
        exact Decoder.takes_fail _ 1
      · intro limit
        unfold decodeElements
        exact Decoder.takes_fail _ 0
      · intro limit
        unfold decodeEntries
        exact Decoder.takes_fail _ 0
  | succ depth ih =>
      have hvalue := ih.1
      have helements := ih.2.1
      have hentries := ih.2.2
      refine ⟨?_, ?_, ?_⟩
      · unfold decodeFieldValue
        exact takes_amqpDecode8.bind fun kind => takes_decodeCase helements hentries _
      · intro limit
        unfold decodeElements
        exact (hvalue.bind fun value => (helements limit).map _).before limit _
      · intro limit
        unfold decodeEntries
        exact (takes_amqpDecodeShortstr.bind fun key => hvalue.bind fun value =>
          (hentries limit).map _).before limit _

/-! ## The end of every call

Every failure of the decoders is `AMQP_STATUS_BAD_AMQP_DATA`. -/

section

open Decoder

variable {buffer : Bytes} {start : Nat}

theorem ends_amqpDecode (width : Nat) : Ends .badAmqpData (amqpDecode width) buffer start :=
  (ends_take width).map (takes_take _ width) bigEndianValue

theorem ends_amqpDecode8 : Ends .badAmqpData amqpDecode8 buffer start :=
  (ends_amqpDecode 1).map (takes_amqpDecode 1) _

theorem ends_amqpDecode16 : Ends .badAmqpData amqpDecode16 buffer start :=
  (ends_amqpDecode 2).map (takes_amqpDecode 2) _

theorem ends_amqpDecode32 : Ends .badAmqpData amqpDecode32 buffer start :=
  (ends_amqpDecode 4).map (takes_amqpDecode 4) _

theorem ends_amqpDecode64 : Ends .badAmqpData amqpDecode64 buffer start :=
  (ends_amqpDecode 8).map (takes_amqpDecode 8) _

theorem ends_amqpDecodeShortstr : Ends .badAmqpData amqpDecodeShortstr buffer start :=
  ends_amqpDecode8.bind takes_amqpDecode8 fun len => ends_take len.toNat

theorem ends_amqpDecodeLongstr : Ends .badAmqpData amqpDecodeLongstr buffer start :=
  ends_amqpDecode32.bind takes_amqpDecode32 fun len => ends_take len.toNat

theorem ends_amqpDecodeSized {α : Type} {entries : Nat → AmqpDecoder α}
    (h : ∀ limit, Ends .badAmqpData (entries limit) buffer (start + 4)) :
    Ends .badAmqpData (amqpDecodeSized entries) buffer start :=
  ends_amqpDecode32.bind takes_amqpDecode32 fun size => Ends.limited h size.toNat

theorem ends_decodeCase {elements : Nat → AmqpDecoder FieldArray} {entries : Nat → AmqpDecoder Table}
    (helements : ∀ limit, Ends .badAmqpData (elements limit) buffer (start + 4))
    (hentries : ∀ limit, Ends .badAmqpData (entries limit) buffer (start + 4))
    (helementsTake : ∀ limit, (elements limit).Takes 0)
    (hentriesTake : ∀ limit, (entries limit).Takes 0) (kind : Option FieldKind) :
    Ends .badAmqpData (decodeCase elements entries kind) buffer start := by
  cases kind with
  | none => exact ends_fail
  | some k =>
      cases k with
      | boolean | i8 | u8 => exact ends_amqpDecode8.map takes_amqpDecode8 _
      | i16 | u16 => exact ends_amqpDecode16.map takes_amqpDecode16 _
      | i32 | u32 | f32 => exact ends_amqpDecode32.map takes_amqpDecode32 _
      | i64 | u64 | f64 | timestamp => exact ends_amqpDecode64.map takes_amqpDecode64 _
      | decimal =>
          exact ends_amqpDecode8.bind takes_amqpDecode8 fun decimals =>
            ends_amqpDecode32.map takes_amqpDecode32 _
      | utf8 | bytes => exact ends_amqpDecodeLongstr.map takes_amqpDecodeLongstr _
      | array => exact (ends_amqpDecodeSized helements).map (takes_amqpDecodeSized helementsTake) _
      | table => exact (ends_amqpDecodeSized hentries).map (takes_amqpDecodeSized hentriesTake) _
      | void => exact ends_pure _

/-- A depth of twice the octets that are left is enough. -/
theorem ends_decode (buffer : Bytes) (depth : Nat) :
    (∀ start, 2 * (buffer.length - start) + 1 ≤ depth →
      Ends .badAmqpData (decodeFieldValue depth) buffer start) ∧
    (∀ start limit, 2 * (buffer.length - start) + 2 ≤ depth →
      Ends .badAmqpData (decodeElements depth limit) buffer start) ∧
    ∀ start limit, 2 * (buffer.length - start) + 2 ≤ depth →
      Ends .badAmqpData (decodeEntries depth limit) buffer start := by
  induction depth with
  | zero =>
      refine ⟨?_, ?_, ?_⟩ <;> intros <;> omega
  | succ depth ih =>
      have hvalue := ih.1
      have helements := ih.2.1
      have hentries := ih.2.2
      have htakes := takes_decode depth
      refine ⟨?_, ?_, ?_⟩
      · intro start hdepth
        unfold decodeFieldValue
        apply ends_amqpDecode8.bind takes_amqpDecode8
        intro kind
        by_cases hbehind : buffer.length < start + 1
        · exact ends_behind _ hbehind
        · exact ends_decodeCase (fun limit => helements _ limit (by omega))
            (fun limit => hentries _ limit (by omega)) htakes.2.1 htakes.2.2 _
      · intro start limit hdepth
        unfold decodeElements
        apply Ends.before
        apply (hvalue start (by omega)).bind htakes.1
        intro value
        by_cases hbehind : buffer.length < start + 1
        · exact ends_behind _ hbehind
        · exact (helements _ limit (by omega)).map (htakes.2.1 limit) _
      · intro start limit hdepth
        unfold decodeEntries
        apply Ends.before
        apply ends_amqpDecodeShortstr.bind takes_amqpDecodeShortstr
        intro key
        by_cases hbehind : buffer.length < start + 1
        · exact ends_behind _ hbehind
        · apply (hvalue _ (by omega)).bind htakes.1
          intro value
          by_cases hend : buffer.length < start + 1 + 1
          · exact ends_behind _ hend
          · exact (hentries _ limit (by omega)).map (htakes.2.2 limit) _

end

/-! ## The entry points -/

theorem takes_amqpDecodeTable : amqpDecodeTable.Takes 4 := fun buffer =>
  takes_amqpDecodeSized (takes_decode (depthFor buffer)).2.2 buffer

theorem ends_amqpDecodeTable {buffer : Bytes} {start : Nat} :
    Decoder.Ends .badAmqpData amqpDecodeTable buffer start := by
  have hentries : ∀ limit,
      Decoder.Ends .badAmqpData (decodeEntries (depthFor buffer) limit) buffer (start + 4) := by
    intro limit
    apply (ends_decode buffer (depthFor buffer)).2.2
    unfold depthFor
    omega
  intro offset
  exact ends_amqpDecodeSized hentries offset

theorem decodes_amqpDecodeTable {t : Table} (hsized : t.Sized) (hsize : t.octets.length < 2 ^ 32) :
    Decodes amqpDecodeTable (counted 4 t.octets) t := by
  intro front tail
  have hdepth : 2 * t.octets.length + 1 ≤ depthFor (front ++ (counted 4 t.octets ++ tail)) := by
    unfold depthFor
    rw [List.length_append, List.length_append, counted_length]
    omega
  exact decodes_amqpDecodeSized hsize (decodes_decodeEntries t _ hsized hdepth) front tail

/-- Whatever a peer sends: a table that lies in the buffer, or `AMQP_STATUS_BAD_AMQP_DATA`. -/
theorem amqpDecodeTable_cases (encoded : Bytes) (offset : Nat) (hoffset : offset ≤ encoded.length) :
    (∃ t next, amqpDecodeTable encoded offset = .ok (t, next) ∧ offset + 4 ≤ next ∧
      next ≤ encoded.length) ∨
    amqpDecodeTable encoded offset = .error (.failed .badAmqpData) := by
  cases h : amqpDecodeTable encoded offset with
  | ok result =>
      have hnext := takes_amqpDecodeTable encoded offset result.1 result.2 hoffset h
      exact .inl ⟨result.1, result.2, rfl, hnext⟩
  | error halt =>
      rw [ends_amqpDecodeTable offset (Nat.le_refl _) hoffset halt h]
      exact .inr rfl

/-- The size in front of the entries is larger than what follows. -/
theorem amqpDecodeTable_cases_short :
    (∃ t next, amqpDecodeTable [0, 0, 0, 200, 1] 0 = .ok (t, next) ∧ 0 + 4 ≤ next ∧ next ≤ 5) ∨
      amqpDecodeTable [0, 0, 0, 200, 1] 0 = .error (.failed .badAmqpData) :=
  amqpDecodeTable_cases [0, 0, 0, 200, 1] 0 (Nat.zero_le _)

/-- A table is encoded exactly where its octets fit, only they are changed, and it is decoded
to the same table as long as its lengths fit into their fields. -/
theorem amqpDecodeTable_amqpEncodeTable (t : Table) (encoded : Bytes) (offset : Nat) :
    ((∃ r, amqpEncodeTable t encoded offset = .ok r) ↔
      offset + (4 + t.octets.length) ≤ encoded.length) ∧
    ∀ written next, amqpEncodeTable t encoded offset = .ok (written, next) →
      written.take offset = encoded.take offset ∧ written.drop next = encoded.drop next ∧
      (t.Sized → t.octets.length < 2 ^ 32 →
        amqpDecodeTable written offset = .ok (t, next)) := by
  have hwrites := encodes_amqpEncodeTable t
  have hne : counted 4 t.octets ≠ [] := by
    apply List.ne_nil_of_length_pos
    rw [counted_length]
    omega
  have hok := hwrites.ok_iff hne encoded offset
  rw [counted_length] at hok
  refine ⟨hok, ?_⟩
  intro written next h
  have hroom := hok.mp ⟨_, h⟩
  have hfits : offset + (counted 4 t.octets).length ≤ encoded.length := by
    rwa [counted_length]
  have hresult := hwrites.fits encoded offset hfits
  rw [h] at hresult
  cases hresult
  refine ⟨putAt_take_before hfits, putAt_drop hfits, ?_⟩
  intro hsized hsize
  exact (decodes_amqpDecodeTable hsized hsize).of_encodes hwrites hne h

end Neb2Amqp
