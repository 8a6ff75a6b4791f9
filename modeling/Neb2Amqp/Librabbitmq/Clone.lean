import Neb2Amqp.Librabbitmq.Frames

/-!
# Copies that outlive a frame

`amqp_table_clone` of amqp_table.c and `amqp_basic_properties_clone` of amqp_consumer.c. A copy
is the same as the original, but there is none of a table with an empty key, and members of
properties whose flag is not set are 0 in the copy.
-/

namespace Neb2Amqp

open CLib

mutual

def amqpFieldValueClone : FieldValue → Except WireFault FieldValue
  | .array entries => do return .array (← cloneElements entries)
  | .table entries => do return .table (← amqpTableClone entries)
  | v => .ok v

def cloneElements : FieldArray → Except WireFault FieldArray
  | .nil => .ok .nil
  | .cons value rest => do
      let value ← amqpFieldValueClone value
      let rest ← cloneElements rest
      return .cons value rest

/-- The loop over `amqp_table_entry_clone`. -/
def amqpTableClone : Table → Except WireFault Table
  | .nil => .ok .nil
  | .cons key value rest =>
      if key.length = 0 then .error (.status .invalidParameter)
      else do
        let value ← amqpFieldValueClone value
        let rest ← amqpTableClone rest
        return .cons key value rest

end

mutual

/-- No table in it has an empty key. -/
def FieldValue.Keyed : FieldValue → Prop
  | .array entries => entries.Keyed
  | .table entries => entries.Keyed
  | _ => True

def FieldArray.Keyed : FieldArray → Prop
  | .nil => True
  | .cons value rest => value.Keyed ∧ rest.Keyed

def Table.Keyed : Table → Prop
  | .nil => True
  | .cons key value rest => key ≠ [] ∧ value.Keyed ∧ rest.Keyed

end

/-- What a copy is: the original, or the failure that an empty key is. -/
def Cloned {α : Type} (keyed : Prop) (v : α) (result : Except WireFault α) : Prop :=
  (keyed → result = .ok v) ∧ (¬ keyed → result = .error (.status .invalidParameter))

namespace Cloned

variable {α β γ : Type} {p q : Prop} {v : α} {w : β} {r : Except WireFault α} {t : Except WireFault β}

theorem ok (v : α) : Cloned True v (.ok v) := ⟨fun _ => rfl, fun h => absurd trivial h⟩

theorem map (hr : Cloned p v r) (f : α → β) : Cloned p (f v) (do return f (← r)) := by
  constructor
  · intro hp
    rw [hr.1 hp]
    rfl
  · intro hp
    rw [hr.2 hp]
    rfl

theorem both (hr : Cloned p v r) (ht : Cloned q w t) (f : α → β → γ) :
    Cloned (p ∧ q) (f v w) (do return f (← r) (← t)) := by
  constructor
  · intro h
    rw [hr.1 h.1, ht.1 h.2]
    rfl
  · intro h
    by_cases hp : p
    · rw [hr.1 hp, ht.2 fun hq => h ⟨hp, hq⟩]
      rfl
    · rw [hr.2 hp]
      rfl

end Cloned

mutual

theorem cloned_amqpFieldValueClone (v : FieldValue) : Cloned v.Keyed v (amqpFieldValueClone v) := by
  cases v with
  | array entries =>
      unfold FieldValue.Keyed amqpFieldValueClone
      exact (cloned_cloneElements entries).map FieldValue.array
  | table entries =>
      unfold FieldValue.Keyed amqpFieldValueClone
      exact (cloned_amqpTableClone entries).map FieldValue.table
  | _ =>
      unfold FieldValue.Keyed amqpFieldValueClone
      exact Cloned.ok _

theorem cloned_cloneElements (a : FieldArray) : Cloned a.Keyed a (cloneElements a) := by
  cases a with
  | nil =>
      unfold FieldArray.Keyed cloneElements
      exact Cloned.ok _
  | cons value rest =>
      unfold FieldArray.Keyed cloneElements
      exact (cloned_amqpFieldValueClone value).both (cloned_cloneElements rest) FieldArray.cons

theorem cloned_amqpTableClone (t : Table) : Cloned t.Keyed t (amqpTableClone t) := by
  cases t with
  | nil =>
      unfold Table.Keyed amqpTableClone
      exact Cloned.ok _
  | cons key value rest =>
      unfold Table.Keyed amqpTableClone
      by_cases hkey : key.length = 0
      · rw [if_pos hkey]
        exact ⟨fun h => absurd (List.length_eq_zero_iff.mp hkey) h.1, fun _ => rfl⟩
      · rw [if_neg hkey]
        have hboth := (cloned_amqpFieldValueClone value).both (cloned_amqpTableClone rest) (Table.cons key)
        have hne : key ≠ [] := fun h => hkey (List.length_eq_zero_iff.mpr h)
        exact ⟨fun h => hboth.1 h.2, fun h => hboth.2 fun hq => h ⟨hne, hq⟩⟩

end

/-! ## Properties -/

/-- A member of a structure that is all zero. -/
def FieldType.zero : (t : FieldType) → t.Value
  | octet => (0 : UInt8)
  | short => (0 : UInt16)
  | long => (0 : UInt32)
  | longlong => (0 : UInt64)
  | shortstr => ([] : Bytes)
  | longstr => ([] : Bytes)
  | table => Table.nil
  | bits count => ⟨List.replicate count false, List.length_replicate⟩

def zeroMembers : (layout : List (Nat × FieldType)) → Members layout
  | [] => ()
  | (_, t) :: rest => (t.zero, zeroMembers rest)

def cloneField : (t : FieldType) → t.Value → Except WireFault t.Value
  | .table, v => amqpTableClone v
  | _, v => .ok v

/-- Over a copy that is all zero. -/
def cloneMembers (flags : UInt32) :
    (layout : List (Nat × FieldType)) → Members layout → Except WireFault (Members layout)
  | [], _ => .ok ()
  | (bit, t) :: rest, p => do
      let v ← if hasFlag flags bit then cloneField t p.1 else .ok t.zero
      let more ← cloneMembers flags rest p.2
      return (v, more)

/-- The original is taken for the properties of the class `basic`, whatever its class is. -/
def amqpBasicPropertiesClone : Properties → Except WireFault Properties
  | ⟨.basic, flags, members⟩ => do
      return ⟨.basic, flags, ← cloneMembers flags PropertyClass.basic.layout members⟩
  | _ => .error .outOfBounds

def fieldKeyed : (t : FieldType) → t.Value → Prop
  | .table, v => Table.Keyed v
  | _, _ => True

/-- The tables among the members that are sent have no empty key. -/
def membersKeyed (flags : UInt32) : (layout : List (Nat × FieldType)) → Members layout → Prop
  | [], _ => True
  | (bit, t) :: rest, p => (hasFlag flags bit → fieldKeyed t p.1) ∧ membersKeyed flags rest p.2

theorem cloned_cloneField (t : FieldType) (v : t.Value) : Cloned (fieldKeyed t v) v (cloneField t v) := by
  cases t with
  | table => exact cloned_amqpTableClone v
  | _ => exact Cloned.ok v

theorem cloned_cloneMembers (flags : UInt32) (layout : List (Nat × FieldType)) (p : Members layout) :
    Cloned (membersKeyed flags layout p) (received flags layout p (zeroMembers layout))
      (cloneMembers flags layout p) := by
  induction layout with
  | nil => exact Cloned.ok ()
  | cons entry rest ih =>
      unfold membersKeyed received cloneMembers
      by_cases hflag : hasFlag flags entry.1
      · simp only [hflag, if_true, true_imp_iff]
        exact (cloned_cloneField entry.2 p.1).both (ih p.2) fun v more => (v, more)
      · simp only [hflag, Bool.false_eq_true, if_false, false_imp_iff]
        exact (Cloned.ok entry.2.zero).both (ih p.2) fun v more => (v, more)

/-- What was over other memory is over zeros in the copy. -/
theorem received_received (flags : UInt32) (layout : List (Nat × FieldType)) (p fresh : Members layout) :
    received flags layout (received flags layout p fresh) (zeroMembers layout) =
      received flags layout p (zeroMembers layout) := by
  induction layout with
  | nil => rfl
  | cons entry rest ih =>
      apply Prod.ext _ (ih p.2 fresh.2)
      by_cases hflag : hasFlag flags entry.1
      · simp only [received, hflag, if_true]
      · simp only [received, hflag, Bool.false_eq_true, if_false]

/-- Without a table that has an empty key in it, there is a copy of the members that are sent. -/
theorem cloned_amqpBasicPropertiesClone (flags : UInt32) (members : Members PropertyClass.basic.layout) :
    Cloned (membersKeyed flags PropertyClass.basic.layout members)
      ⟨.basic, flags, received flags PropertyClass.basic.layout members (zeroMembers PropertyClass.basic.layout)⟩
      (amqpBasicPropertiesClone ⟨.basic, flags, members⟩) :=
  (cloned_cloneMembers flags PropertyClass.basic.layout members).map (Properties.mk .basic flags)

theorem membersKeyed_received_iff {flags : UInt32} {layout : List (Nat × FieldType)} {p : Members layout}
    (fresh : Members layout) :
    membersKeyed flags layout (received flags layout p fresh) ↔ membersKeyed flags layout p := by
  induction layout with
  | nil => exact Iff.rfl
  | cons entry rest ih =>
      unfold membersKeyed received
      rw [ih]
      by_cases hflag : hasFlag flags entry.1
      · simp only [hflag, if_true]
      · simp only [hflag, Bool.false_eq_true, if_false, false_imp_iff]

/-- Properties that were encoded, decoded into any memory and copied: the members that were sent are as
they were and the others are 0. There is no copy if a table that was sent has an empty key in it. -/
theorem amqpBasicPropertiesClone_amqpDecodeProperties (fresh : ∀ c : PropertyClass, Members c.layout)
    {flags : UInt32} {members : Members PropertyClass.basic.layout}
    (h : Properties.Sized ⟨.basic, flags, members⟩) {encoded written : Bytes} {offset next : Nat}
    (hencode : amqpEncodeProperties ⟨.basic, flags, members⟩ encoded offset = .ok (written, next)) :
    ∃ decoded, amqpDecodeProperties PropertyClass.basic.id fresh written offset = .ok (decoded, next) ∧
      (membersKeyed flags PropertyClass.basic.layout members → amqpBasicPropertiesClone decoded =
        .ok ⟨.basic, flags,
          received flags PropertyClass.basic.layout members (zeroMembers PropertyClass.basic.layout)⟩) ∧
      (¬ membersKeyed flags PropertyClass.basic.layout members →
        amqpBasicPropertiesClone decoded = .error (.status .invalidParameter)) := by
  have hne : Properties.octets ⟨.basic, flags, members⟩ ≠ [] := by
    apply List.append_ne_nil_of_left_ne_nil
    exact List.ne_nil_of_length_pos (by rw [bigEndian_length]; decide)
  have hdecode := (decodes_amqpDecodeProperties h fresh).of_encodes (encodes_amqpEncodeProperties h) hne hencode
  have hclone := cloned_amqpBasicPropertiesClone flags
    (received flags PropertyClass.basic.layout members (fresh .basic))
  rw [received_received] at hclone
  have hkeyed := @membersKeyed_received_iff flags PropertyClass.basic.layout members (fresh .basic)
  exact ⟨_, hdecode, fun hk => hclone.1 (hkeyed.mpr hk), fun hk => hclone.2 fun hr => hk (hkeyed.mp hr)⟩

/-- A header with an empty name arrives, and cannot be copied. -/
theorem amqpBasicPropertiesClone_amqpDecodeProperties_unnamed :
    ∃ decoded, amqpDecodeProperties PropertyClass.basic.id (fun c => zeroMembers c.layout)
        [32, 0, 0, 0, 0, 3, 0, 116, 1] 0 = .ok (decoded, 9) ∧
      amqpBasicPropertiesClone decoded = .error (.status .invalidParameter) := by
  let members : Members PropertyClass.basic.layout :=
    ([], [], .cons [] (.boolean true) .nil, (0 : UInt8), (0 : UInt8), [], [], [], [], (0 : UInt64), [], [], [], [], ())
  have hsized : Properties.Sized ⟨.basic, (1 : UInt32) <<< 13, members⟩ := by
    refine ⟨by decide, by decide, ?_⟩
    have htable : (Table.cons [] (.boolean true) .nil).Sized ∧
        (Table.cons [] (.boolean true) .nil).octets.length < 2 ^ 32 := by
      simp [Table.Sized, FieldValue.Sized, Table.octets, FieldValue.octets]
    simp only [PropertyClass.layout, membersSized, hasFlag, fieldSized, members, htable]
    simp
  have hencode : amqpEncodeProperties ⟨.basic, (1 : UInt32) <<< 13, members⟩ (List.replicate 9 0) 0 =
      .ok ([32, 0, 0, 0, 0, 3, 0, 116, 1], 9) := by decide +kernel
  obtain ⟨decoded, hdecode, _, hclone⟩ :=
    amqpBasicPropertiesClone_amqpDecodeProperties (fun c => zeroMembers c.layout) hsized hencode
  refine ⟨decoded, hdecode, hclone ?_⟩
  have hflag : ¬ (1 : UInt32) <<< 13 = 0 := by decide
  simp [PropertyClass.layout, membersKeyed, hasFlag, fieldKeyed, members, Table.Keyed, hflag]

end Neb2Amqp
