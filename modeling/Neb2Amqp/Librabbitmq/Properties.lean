import Neb2Amqp.Librabbitmq.MethodFormat

/-!
# Content properties

`amqp_encode_properties` and `amqp_decode_properties` of amqp_framing.c. A flag word says
which members follow. A member whose flag is not set is neither sent nor, at the other end,
written: there it keeps what the new structure held.
-/

namespace Neb2Amqp

open CLib

/-- The classes that both functions know. -/
inductive PropertyClass
  | connection
  | channel
  | access
  | exchange
  | queue
  | basic
  | tx
  | confirm
  deriving DecidableEq

namespace PropertyClass

def id : PropertyClass → UInt16
  | connection => 10
  | channel => 20
  | access => 30
  | exchange => 40
  | queue => 50
  | basic => 60
  | tx => 90
  | confirm => 85

/-- The members with the number of their flag's bit. -/
def layout : PropertyClass → List (Nat × FieldType)
  | basic =>
      -- content_type, content_encoding, headers, delivery_mode, priority, correlation_id, reply_to,
      -- expiration, message_id, timestamp, type, user_id, app_id, cluster_id
      [(15, .shortstr), (14, .shortstr), (13, .table), (12, .octet), (11, .octet), (10, .shortstr),
        (9, .shortstr), (8, .shortstr), (7, .shortstr), (6, .longlong), (5, .shortstr), (4, .shortstr),
        (3, .shortstr), (2, .shortstr)]
  | _ => []

def all : List PropertyClass := [connection, channel, access, exchange, queue, basic, tx, confirm]

def ofId (classId : UInt16) : Option PropertyClass := all.find? fun c => c.id = classId

theorem ofId_id (c : PropertyClass) : ofId c.id = some c := by
  cases c <;> decide

end PropertyClass

/-- The members of a property structure. -/
abbrev Members (layout : List (Nat × FieldType)) : Type := Args (layout.map Prod.snd)

structure Properties where
  cls : PropertyClass
  flags : UInt32
  members : Members cls.layout

def hasFlag (flags : UInt32) (bit : Nat) : Bool := flags &&& (1 <<< UInt32.ofNat bit) ≠ 0

/-! ## The encoder -/

/-- The loop over `remaining_flags`. The lowest bit of a word says that another one follows. -/
def encodeFlags : Nat → UInt32 → AmqpEncoder
  | 0, _ => .nothing
  | words + 1, remainingFlags =>
      let remainder := remainingFlags >>> 16
      let partialFlags := (remainingFlags &&& 0xFFFE).toUInt16
      let partialFlags := if remainder ≠ 0 then partialFlags ||| 1 else partialFlags
      (amqpEncode16 .badAmqpData partialFlags).append
        (if remainder ≠ 0 then encodeFlags words remainder else .nothing)

def encodeMembers (flags : UInt32) : (layout : List (Nat × FieldType)) → Members layout → AmqpEncoder
  | [], _ => .nothing
  | (bit, t) :: rest, p =>
      Encoder.append (if hasFlag flags bit then encodeField t p.1 else .nothing)
        (encodeMembers flags rest p.2)

/-- 32 bits of flags are two words at most. -/
def amqpEncodeProperties (p : Properties) : AmqpEncoder :=
  (encodeFlags 2 p.flags).append (encodeMembers p.flags p.cls.layout p.members)

/-! ## The decoder -/

/-- The loop over the flag words. The shift of a third word or a later one is undefined in C;
here its amount counts modulo 32, as the machine takes it. -/
def decodeFlags : Nat → Nat → UInt32 → AmqpDecoder UInt32
  | 0, _, _ => .fail .unfinished
  | depth + 1, flagwordIndex, flags => amqpDecode16.bind fun partialFlags =>
      let flags := flags ||| (partialFlags.toUInt32 <<< UInt32.ofNat (flagwordIndex * 16))
      if partialFlags &&& 1 ≠ 0 then decodeFlags depth (flagwordIndex + 1) flags else .pure flags

/-- The members over the structure `p`. -/
def decodeMembers (flags : UInt32) :
    (layout : List (Nat × FieldType)) → Members layout → AmqpDecoder (Members layout)
  | [], p => .pure p
  | (bit, t) :: rest, p =>
      (if hasFlag flags bit then decodeField t else .pure p.1).bind fun v =>
        (decodeMembers flags rest p.2).map fun more => (v, more)

/-- `fresh` is what the memory of the new structure holds. -/
def amqpDecodeProperties (classId : UInt16) (fresh : ∀ c : PropertyClass, Members c.layout) :
    AmqpDecoder Properties := fun encoded =>
  ((decodeFlags (depthFor encoded) 0 0).bind fun flags =>
    match PropertyClass.ofId classId with
    | some c => (decodeMembers flags c.layout (fresh c)).map fun p => ⟨c, flags, p⟩
    | none => .fail (.failed .unknownClass)) encoded

/-! ## The format -/

/-- The octets of the members whose flags are set. -/
def membersOctets (flags : UInt32) : (layout : List (Nat × FieldType)) → Members layout → Bytes
  | [], _ => []
  | (bit, t) :: rest, p =>
      (if hasFlag flags bit then fieldOctets t p.1 else []) ++ membersOctets flags rest p.2

/-- What arrives: the members with their flags, over those that were there. -/
def received (flags : UInt32) :
    (layout : List (Nat × FieldType)) → Members layout → Members layout → Members layout
  | [], _, fresh => fresh
  | (bit, _) :: rest, p, fresh =>
      (if hasFlag flags bit then p.1 else fresh.1, received flags rest p.2 fresh.2)

def membersSized (flags : UInt32) : (layout : List (Nat × FieldType)) → Members layout → Prop
  | [], _ => True
  | (bit, t) :: rest, p => (hasFlag flags bit → fieldSized t p.1) ∧ membersSized flags rest p.2

namespace Properties

/-- The octets of properties whose flags fit into one word. -/
def octets (p : Properties) : Bytes :=
  bigEndian 2 p.flags.toNat ++ membersOctets p.flags p.cls.layout p.members

/-- One flag word, no bit of it saying that another one follows, and members that fit. -/
def Sized (p : Properties) : Prop :=
  p.flags.toNat < 2 ^ 16 ∧ p.flags.toNat % 2 = 0 ∧ membersSized p.flags p.cls.layout p.members

end Properties

theorem encodes_encodeMembers (flags : UInt32) (layout : List (Nat × FieldType)) (p : Members layout) :
    Encodes (encodeMembers flags layout p) (membersOctets flags layout p) := by
  induction layout with
  | nil => exact Encodes.nil
  | cons entry rest ih =>
      unfold encodeMembers membersOctets
      by_cases h : hasFlag flags entry.1
      · rw [if_pos h, if_pos h]
        exact (encodes_encodeField entry.2 p.1).append (ih p.2)
      · rw [if_neg h, if_neg h]
        exact Encodes.nil.append (ih p.2)

theorem decodes_decodeMembers {flags : UInt32} {layout : List (Nat × FieldType)} {p : Members layout}
    (h : membersSized flags layout p) (fresh : Members layout) :
    Decodes (decodeMembers flags layout fresh) (membersOctets flags layout p)
      (received flags layout p fresh) := by
  induction layout with
  | nil => exact decodes_pure fresh
  | cons entry rest ih =>
      unfold decodeMembers membersOctets received
      have hrest := ih h.2 fresh.2
      by_cases hflag : hasFlag flags entry.1
      · rw [if_pos hflag, if_pos hflag, if_pos hflag]
        exact (decodes_decodeField (h.1 hflag)).bind
          (hrest.map fun more => ((p.1, more) : Members (entry :: rest)))
      · rw [if_neg hflag, if_neg hflag, if_neg hflag]
        exact (decodes_pure fresh.1).bind
          (hrest.map fun more => ((fresh.1, more) : Members (entry :: rest)))

/-! ## The flag word -/

section

variable {flags : UInt32} (hword : flags.toNat < 2 ^ 16) (heven : flags.toNat % 2 = 0)

include hword heven

theorem flags_and : (flags &&& 0xFFFE).toUInt16.toNat = flags.toNat := by
  have hhalf : flags.toNat = (flags.toNat / 2) <<< 1 := by
    rw [Nat.shiftLeft_eq]
    omega
  have hmask : (0xFFFE : Nat) = (2 ^ 15 - 1) <<< 1 := by decide
  have hand : flags.toNat &&& 0xFFFE = flags.toNat := by
    rw [hmask]
    conv_lhs => rw [hhalf]
    rw [← Nat.shiftLeft_and_distrib, Nat.and_two_pow_sub_one_eq_mod, Nat.mod_eq_of_lt (by omega),
      ← hhalf]
  have hnat : (flags &&& 0xFFFE).toNat = flags.toNat := by
    rw [UInt32.toNat_and]
    exact hand
  rw [UInt32.toNat_toUInt16, hnat, Nat.mod_eq_of_lt hword]

theorem encodes_encodeFlags : Encodes (encodeFlags 2 flags) (bigEndian 2 flags.toNat) := by
  have hrest : flags >>> 16 = 0 := by
    apply UInt32.toNat.inj
    rw [UInt32.toNat_shiftRight]
    exact Nat.shiftRight_eq_zero _ _ hword
  have hput := encodes_amqpEncode 2 .badAmqpData (flags &&& 0xFFFE).toUInt16.toNat
  rw [flags_and hword heven] at hput
  have hboth := hput.append (@Encodes.nil AmqpStatus)
  rw [List.append_nil] at hboth
  have hword : encodeFlags 2 flags =
      (amqpEncode16 .badAmqpData (flags &&& 0xFFFE).toUInt16).append .nothing := by
    unfold encodeFlags
    simp only [hrest]
    rfl
  rw [hword]
  unfold amqpEncode16
  rwa [flags_and ‹_› heven]

theorem decodes_decodeFlags (depth : Nat) :
    Decodes (decodeFlags (depth + 1) 0 0) (bigEndian 2 flags.toNat) flags := by
  have hsame : (UInt16.ofNat flags.toNat).toNat = flags.toNat := UInt16.toNat_ofNat_of_lt' hword
  have hread := decodes_amqpDecode16 (UInt16.ofNat flags.toNat)
  rw [hsame] at hread
  have hlast : UInt16.ofNat flags.toNat &&& 1 = 0 := by
    apply UInt16.toNat.inj
    rw [UInt16.toNat_and, hsame]
    exact (Nat.and_one_is_mod flags.toNat).trans heven
  have hflags : (0 : UInt32) ||| (UInt16.ofNat flags.toNat).toUInt32 <<< UInt32.ofNat (0 * 16) = flags := by
    apply UInt32.toNat.inj
    rw [UInt32.toNat_or, UInt32.toNat_shiftLeft, UInt16.toNat_toUInt32, hsame]
    have hbound := flags.toNat_lt
    simp [Nat.mod_eq_of_lt hbound]
  rw [← List.append_nil (bigEndian 2 flags.toNat)]
  unfold decodeFlags
  apply hread.bind
  rw [if_neg (not_not_intro hlast), hflags]
  exact decodes_pure flags

end

/-! ## Properties -/

theorem encodes_amqpEncodeProperties {p : Properties} (h : p.Sized) :
    Encodes (amqpEncodeProperties p) p.octets :=
  (encodes_encodeFlags h.1 h.2.1).append (encodes_encodeMembers p.flags p.cls.layout p.members)

/-- What the other end makes of the properties. -/
def Properties.arrived (p : Properties) (fresh : ∀ c : PropertyClass, Members c.layout) : Properties :=
  ⟨p.cls, p.flags, received p.flags p.cls.layout p.members (fresh p.cls)⟩

theorem decodes_amqpDecodeProperties {p : Properties} (h : p.Sized)
    (fresh : ∀ c : PropertyClass, Members c.layout) :
    Decodes (amqpDecodeProperties p.cls.id fresh) p.octets (p.arrived fresh) := by
  intro front tail
  have hmembers := decodes_decodeMembers h.2.2 (fresh p.cls)
  have hflags := decodes_decodeFlags h.1 h.2.1
    (2 * (front ++ (p.octets ++ tail)).length + 1)
  unfold amqpDecodeProperties
  rw [PropertyClass.ofId_id]
  exact hflags.bind (hmembers.map fun m => Properties.mk p.cls p.flags m) front tail

/-! ## Octets of a peer -/

theorem takes_decodeFlags (depth flagwordIndex : Nat) (flags : UInt32) :
    (decodeFlags depth flagwordIndex flags).Takes 0 := by
  induction depth generalizing flagwordIndex flags with
  | zero => exact Decoder.takes_fail _ 0
  | succ depth ih =>
      unfold decodeFlags
      apply Decoder.Takes.mono _ (Nat.zero_le (2 + 0))
      apply takes_amqpDecode16.bind
      intro partialFlags
      dsimp only
      split
      · exact ih _ _
      · exact Decoder.takes_pure _

theorem ends_decodeFlags {buffer : Bytes} (depth flagwordIndex : Nat) (flags : UInt32) {start : Nat}
    (hdepth : 2 * (buffer.length - start) + 2 ≤ depth) :
    Decoder.Ends .badAmqpData (decodeFlags depth flagwordIndex flags) buffer start := by
  induction depth generalizing flagwordIndex flags start with
  | zero => omega
  | succ depth ih =>
      unfold decodeFlags
      apply ends_amqpDecode16.bind takes_amqpDecode16
      intro partialFlags
      dsimp only
      split
      · by_cases hbehind : buffer.length < start + 2
        · exact Decoder.ends_behind _ hbehind
        · exact ih _ _ (by omega)
      · exact Decoder.ends_pure _

theorem takes_decodeMembers (flags : UInt32) (layout : List (Nat × FieldType)) (p : Members layout) :
    (decodeMembers flags layout p).Takes 0 := by
  induction layout with
  | nil => exact Decoder.takes_pure p
  | cons entry rest ih =>
      unfold decodeMembers
      apply Decoder.Takes.bind (n := 0) (m := 0)
      · split
        · exact (takes_decodeField entry.2).mono (Nat.zero_le _)
        · exact Decoder.takes_pure _
      · intro v
        exact (ih p.2).map _

theorem ends_decodeMembers (flags : UInt32) (layout : List (Nat × FieldType)) (p : Members layout)
    {buffer : Bytes} {start : Nat} :
    Decoder.Ends .badAmqpData (decodeMembers flags layout p) buffer start := by
  induction layout generalizing start with
  | nil => exact Decoder.ends_pure p
  | cons entry rest ih =>
      unfold decodeMembers
      apply Decoder.Ends.bind (n := 0)
      · split
        · exact ends_decodeField entry.2
        · exact Decoder.ends_pure _
      · split
        · exact (takes_decodeField entry.2).mono (Nat.zero_le _)
        · exact Decoder.takes_pure _
      · intro v
        exact (ih p.2).map (takes_decodeMembers flags rest p.2) _

end Neb2Amqp
