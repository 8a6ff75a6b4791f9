import Neb2Amqp.Events.FieldValues
import Neb2Amqp.Events.Selection

/-!
# Routing keys

All routing keys are joined by `n2a_str_join` and cut at `max_size` where they are sent.
An acknowledgement names the key of the check once more in its fields, as it was joined.
-/

namespace Neb2Amqp

open CLib

/-- The length of the joined key of an event. -/
def keyLength (realloc : Nat → Bool) (parts : List (Option CString)) : Nat :=
  joinedLength realloc 1 parts 0 0

theorem xstrlen_key (realloc : Nat → Bool) (parts : List (Option CString)) :
    xstrlen (n2aStrJoin realloc (.lit ".") parts) = min (keyLength realloc parts) uintMax :=
  xstrlen_n2aStrJoin realloc (.lit ".") parts

/-- A key is cut if it is longer than `max_size`, unless that is negative. -/
theorem routingKey_eq (o : Options) (realloc : Nat → Bool) (parts : List (Option CString)) :
    routingKey o realloc parts =
      if 0 ≤ o.maxSize.toInt ∧ o.maxSize.toInt < keyLength realloc parts then
        if realloc parts.length then
          (n2aStrJoin realloc (.lit ".") parts).map (·.take o.maxSize.toInt.toNat)
        else none
      else n2aStrJoin realloc (.lit ".") parts := by
  have hlt := o.maxSize.toInt_lt
  have hmax : uintMax = 4294967295 := rfl
  have hcut : exceeds (xstrlen (n2aStrJoin realloc (.lit ".") parts)) o.maxSize = true ↔
      0 ≤ o.maxSize.toInt ∧ o.maxSize.toInt < keyLength realloc parts := by
    rw [exceeds_iff (xstrlen_le_uintMax _), xstrlen_key]
    omega
  unfold routingKey
  exact if_congr hcut rfl rfl

/-! ## The keys of the events -/

def hostCheckParts (o : Options) (hostName : Option CString) : List (Option CString) :=
  [o.connector, o.eventsourceName, some (.lit "check"), some (.lit "component"), hostName]

def serviceCheckParts (o : Options) (hostName serviceDescription : Option CString) :
    List (Option CString) :=
  [o.connector, o.eventsourceName, some (.lit "check"), some (.lit "resource"), hostName,
    serviceDescription]

theorem hostCheckKey_eq (o : Options) (realloc : Nat → Bool) (c : HostCheckData) :
    hostCheckKey o realloc c = routingKey o realloc (hostCheckParts o c.hostName) := rfl

theorem serviceCheckKey_eq (o : Options) (realloc : Nat → Bool) (c : ServiceCheckData) :
    serviceCheckKey o realloc c =
      routingKey o realloc (serviceCheckParts o c.hostName c.serviceDescription) := rfl

/-! ## What an acknowledgement refers to -/

/-- The parts of the key of what is acknowledged. -/
def acknowledgedParts (o : Options) (c : AcknowledgementData) : List (Option CString) :=
  if c.acknowledgementType = hostAcknowledgement then hostCheckParts o c.hostName
  else serviceCheckParts o c.hostName c.serviceDescription

/-- Both fields that name a key name this one. -/
structure RefersTo (o : Options) (realloc : Nat → Bool) (c : AcknowledgementData)
    (key : Option CString) : Prop where
  refRk : jsonObjectGet (acknowledgementJson o realloc c) (.lit "ref_rk") = key.map .string
  referer : jsonObjectGet (acknowledgementJson o realloc c) (.lit "referer") = key.map .string

/-- The fields name the key under which checks of the same host, or of the same service,
are sent. `realloc` answers alike where that key is joined. -/
structure Refers (o : Options) (realloc : Nat → Bool) (c : AcknowledgementData) : Prop where
  host : c.acknowledgementType = hostAcknowledgement →
    ∀ check : HostCheckData, check.hostName = c.hostName →
      RefersTo o realloc c (hostCheckKey o realloc check)
  service : c.acknowledgementType = serviceAcknowledgement →
    ∀ check : ServiceCheckData, check.hostName = c.hostName →
      check.serviceDescription = c.serviceDescription →
        RefersTo o realloc c (serviceCheckKey o realloc check)

theorem acknowledgementRefRk_eq (o : Options) (realloc : Nat → Bool) {c : AcknowledgementData}
    (htype : c.acknowledgementType = hostAcknowledgement ∨
      c.acknowledgementType = serviceAcknowledgement) :
    acknowledgementRefRk o realloc c =
      n2aStrJoin realloc (.lit ".") (acknowledgedParts o c) := by
  have hdistinct : serviceAcknowledgement ≠ hostAcknowledgement := by decide
  rcases htype with htype | htype
  · simp [acknowledgementRefRk, acknowledgedParts, hostCheckParts, htype]
  · simp [acknowledgementRefRk, acknowledgedParts, serviceCheckParts, htype, hdistinct]

theorem refersTo_iff {o : Options} {realloc : Nat → Bool} {c : AcknowledgementData}
    {key : Option CString} : RefersTo o realloc c key ↔ acknowledgementRefRk o realloc c = key := by
  have hkeys := NebEvent.keysOf_table o realloc (.other (.acknowledgement c))
  have hget : ∀ field ∈ [CString.lit "ref_rk", CString.lit "referer"],
      jsonObjectGet (acknowledgementJson o realloc c) field =
        (acknowledgementRefRk o realloc c).map .string := by
    intro field hfield
    have htable : (field, EventOption.stringNocheck (acknowledgementRefRk o realloc c)) ∈
        acknowledgementOptions o realloc c := by
      rcases List.mem_pair.mp hfield with rfl | rfl <;> simp [acknowledgementOptions]
    rw [acknowledgementJson, n2aAddOptionsToEvent_eq, optionEntries_none]
    refine jsonObjectGet_enterAll ?_ (List.mem_map_of_mem htable) (hkeys.2 field ?_)
    · have hsame : keysOf ((acknowledgementOptions o realloc c).map fun option =>
          (option.1, option.2.item o)) = keysOf (acknowledgementOptions o realloc c) := by
        simp [keysOf]
      rw [hsame]
      exact hkeys.1
    · exact List.mem_map_of_mem (f := Prod.fst) htable
  have hinj : Function.Injective (Option.map JsonValue.string) :=
    Option.map_injective fun s t h => by cases h; rfl
  constructor
  · intro h
    exact hinj ((hget _ List.mem_cons_self).symm.trans h.refRk)
  · intro h
    rw [h] at hget
    exact ⟨hget _ (by simp), hget _ (by simp)⟩

theorem routingKey_eq_iff {o : Options} (hmax : 0 ≤ o.maxSize.toInt) (realloc : Nat → Bool)
    (parts : List (Option CString)) :
    n2aStrJoin realloc (.lit ".") parts = routingKey o realloc parts ↔
      (keyLength realloc parts : Int) ≤ o.maxSize.toInt := by
  have hlength := xstrlen_key realloc parts
  have hlt := o.maxSize.toInt_lt
  have huint : uintMax = 4294967295 := rfl
  rw [routingKey_eq]
  split
  · rename_i hcut
    constructor
    · intro hsame
      have hshort : xstrlen (n2aStrJoin realloc (.lit ".") parts) ≤ o.maxSize.toInt.toNat := by
        rw [hsame]
        split
        · cases n2aStrJoin realloc (.lit ".") parts with
          | none => exact Nat.zero_le _
          | some key =>
              rw [Option.map_some, xstrlen_some, CString.strlen_take]
              omega
        · exact Nat.zero_le _
      omega
    · omega
  · rename_i hwhole
    exact iff_of_true rfl (by omega)

end Neb2Amqp
