import Neb2Amqp.Events.OtherSizes

/-!
# Whether the fields carry the values of the event

The tables say through which type a member is read, and all whole numbers are read
through an `int *`. Beside them stand the members with the types they are declared with.
-/

namespace Neb2Amqp

open CLib

/-- A member of an event, with its type in the header of Nagios. -/
inductive Member
  | string (p : Option CString)
  | int (n : Int32)
  | timeT (t : Int64)
  | unsignedLong (n : UInt64)
  | double (value : UInt64)
  | flag (n : Int32)

namespace Member

/-- What a field should have for it; a NULL string has no field. -/
def value : Member → Option JsonValue
  | .string p => p.map .string
  | .int n => some (.integer n.toInt)
  | .timeT t => some (.integer t.toInt)
  | .unsignedLong n => some (.integer n.toNat)
  | .double value => some (.real value)
  | .flag n => some (.boolean (n ≠ 0))

/-- How the tables read it. -/
def option : Member → EventOption
  | .string p => .stringNocheck p
  | .int n => .integer n
  | .timeT t => .integer t.toInt32
  | .unsignedLong n => .integer n.toUInt32.toInt32
  | .double value => .real value
  | .flag n => .boolean n

/-- An `int` can hold it. -/
def Fits : Member → Prop
  | .timeT t => -2 ^ 31 ≤ t.toInt ∧ t.toInt < 2 ^ 31
  | .unsignedLong n => n.toNat < 2 ^ 31
  | _ => True

theorem unsignedLong_toInt32_iff (n : UInt64) :
    n.toUInt32.toInt32.toInt = n.toNat ↔ n.toNat < 2 ^ 31 := by
  have hlow : n.toUInt32.toInt32.toInt = ((n.toNat % 2 ^ 32 : Nat) : Int).bmod (2 ^ 32) := by
    rw [← UInt64.toNat_toUInt32]
    exact BitVec.toInt_eq_toNat_bmod _
  rw [hlow, Int.bmod_def]
  split <;> omega

theorem item_option_iff (o : Options) (member : Member) :
    member.option.item o = member.value ↔ member.Fits := by
  cases member with
  | string p => exact iff_of_true rfl trivial
  | int n => exact iff_of_true rfl trivial
  | timeT t =>
      rw [Fits, ← toInt_toInt32_iff]
      simp [option, EventOption.item, jsonInteger, value]
  | unsignedLong n =>
      rw [Fits, ← unsignedLong_toInt32_iff]
      simp [option, EventOption.item, jsonInteger, value]
  | double bits => exact iff_of_true rfl trivial
  | flag n =>
      have hbool : (n != 0) = decide (n ≠ 0) := Bool.eq_iff_iff.mpr (by simp)
      refine iff_of_true ?_ trivial
      rw [value, ← hbool]
      rfl

end Member

/-! ## The members behind the tables -/

def serviceCheckMembers (o : Options) (c : ServiceCheckData) : List (CString × Member) :=
  [(.lit "connector", .string o.connector),
    (.lit "connector_name", .string o.eventsourceName),
    (.lit "event_type", .string (some (.lit "check"))),
    (.lit "source_type", .string (some (.lit "resource"))),
    (.lit "component", .string c.hostName),
    (.lit "resource", .string c.serviceDescription),
    (.lit "address", .string c.object.host.address),
    (.lit "timestamp", .timeT c.timestamp),
    (.lit "state", .int c.state),
    (.lit "state_type", .int c.stateType),
    (.lit "check_type", .int c.checkType),
    (.lit "current_attempt", .int c.currentAttempt),
    (.lit "max_attempts", .int c.maxAttempts),
    (.lit "execution_time", .double c.executionTime),
    (.lit "latency", .double c.latency),
    (.lit "command_name", .string c.commandName)]

def hostCheckMembers (o : Options) (c : HostCheckData) : List (CString × Member) :=
  [(.lit "connector", .string o.connector),
    (.lit "connector_name", .string o.eventsourceName),
    (.lit "event_type", .string (some (.lit "check"))),
    (.lit "source_type", .string (some (.lit "component"))),
    (.lit "component", .string c.hostName),
    (.lit "address", .string c.object.address),
    (.lit "timestamp", .timeT c.timestamp),
    (.lit "state", .int c.state),
    (.lit "state_type", .int c.stateType),
    (.lit "check_type", .int c.checkType),
    (.lit "current_attempt", .int c.currentAttempt),
    (.lit "max_attempts", .int c.maxAttempts),
    (.lit "execution_time", .double c.executionTime),
    (.lit "latency", .double c.latency),
    (.lit "command_name", .string c.commandName)]

/-- The state type is a constant of the builder. -/
def acknowledgementMembers (o : Options) (refRealloc : Nat → Bool) (c : AcknowledgementData) :
    List (CString × Member) :=
  [(.lit "connector", .string o.connector),
    (.lit "connector_name", .string o.eventsourceName),
    (.lit "event_type", .string (some (.lit "ack"))),
    (.lit "source_type", .string (acknowledgementSource c)),
    (.lit "component", .string c.hostName),
    (.lit "resource", .string c.serviceDescription),
    (.lit "referer", .string (acknowledgementRefRk o refRealloc c)),
    (.lit "ref_rk", .string (acknowledgementRefRk o refRealloc c)),
    (.lit "author", .string c.authorName),
    (.lit "state", .int c.state),
    (.lit "state_type", .int 1),
    (.lit "timestamp", .timeT c.timestamp)]

def downtimeMembers (o : Options) (c : DowntimeData) : List (CString × Member) :=
  [(.lit "connector", .string o.connector),
    (.lit "connector_name", .string o.eventsourceName),
    (.lit "event_type", .string (some (.lit "downtime"))),
    (.lit "source_type", .string (downtimeSource c)),
    (.lit "component", .string c.hostName),
    (.lit "resource", .string c.serviceDescription),
    (.lit "author", .string c.authorName),
    (.lit "timestamp", .timeT c.timestamp),
    (.lit "start", .timeT c.startTime),
    (.lit "end", .timeT c.endTime),
    (.lit "duration", .unsignedLong c.duration),
    (.lit "entry", .timeT c.entryTime),
    (.lit "fixed", .flag c.fixed),
    (.lit "downtime_id", .unsignedLong c.downtimeId)]

namespace NebEvent

variable (o : Options) (refRealloc : Nat → Bool)

/-- The option table of the builder. -/
def table : NebEvent → List (CString × EventOption)
  | .serviceCheck c => serviceCheckOptions o c
  | .other (.hostCheck c) => hostCheckOptions o c
  | .other (.acknowledgement c) => acknowledgementOptions o refRealloc c
  | .other (.downtime c) => downtimeOptions o c

/-- The members behind all entries but the comment. -/
def members : NebEvent → List (CString × Member)
  | .serviceCheck c => serviceCheckMembers o c
  | .other (.hostCheck c) => hostCheckMembers o c
  | .other (.acknowledgement c) => acknowledgementMembers o refRealloc c
  | .other (.downtime c) => downtimeMembers o c

/-- The object the builder makes of its table. -/
def built : NebEvent → JsonObject
  | .serviceCheck c => serviceCheckBase o c
  | .other (.hostCheck c) => hostCheckBase o c
  | .other (.acknowledgement c) => acknowledgementJson o refRealloc c
  | .other (.downtime c) => downtimeJson o c

theorem withoutComment_table (e : NebEvent) :
    withoutComment (e.table o refRealloc) =
      (e.members o refRealloc).map fun member => (member.1, member.2.option) := by
  cases e with
  | serviceCheck c => rfl
  | other e => cases e <;> rfl

theorem keysOf_table (e : NebEvent) :
    (keysOf (e.table o refRealloc)).Nodup ∧
      ∀ key ∈ keysOf (e.table o refRealloc), utf8CheckString key = true := by
  cases e with
  | serviceCheck c =>
      simp only [table, serviceCheckOptions, keysOf, List.map_cons, List.map_nil]
      decide +kernel
  | other e =>
      cases e with
      | hostCheck c =>
          simp only [table, hostCheckOptions, keysOf, List.map_cons, List.map_nil]
          decide +kernel
      | acknowledgement c =>
          simp only [table, acknowledgementOptions, keysOf, List.map_cons, List.map_nil]
          decide +kernel
      | downtime c =>
          simp only [table, downtimeOptions, keysOf, List.map_cons, List.map_nil]
          decide +kernel

variable {o}

theorem built_eq (hhostgroups : o.hostgroups = 0) (hservicegroups : o.servicegroups = 0)
    (hvariables : o.customVariables = 0) (hurls : o.urls = 0) (e : NebEvent) :
    e.built o refRealloc = n2aAddOptionsToEvent o (e.table o refRealloc) jsonObject none := by
  cases e with
  | serviceCheck c =>
      simp [built, table, serviceCheckBase, n2aNebstructAddHostgroups,
        n2aNebstructAddServicegroups, n2aNebstructAddCustomVariables, n2aNebstructAddUrls,
        hhostgroups, hservicegroups, hvariables, hurls]
  | other e =>
      cases e with
      | hostCheck c =>
          simp [built, table, hostCheckBase, n2aNebstructAddHostgroups,
            n2aNebstructAddCustomVariables, n2aNebstructAddUrls, hhostgroups, hvariables, hurls]
      | acknowledgement c => rfl
      | downtime c => rfl

/-- A field has the value that was read for it. -/
theorem built_get (hhostgroups : o.hostgroups = 0) (hservicegroups : o.servicegroups = 0)
    (hvariables : o.customVariables = 0) (hurls : o.urls = 0) (e : NebEvent)
    {member : CString × Member} (hmember : member ∈ e.members o refRealloc) :
    jsonObjectGet (e.built o refRealloc) member.1 = member.2.option.item o := by
  obtain ⟨hnodup, hproper⟩ := e.keysOf_table o refRealloc
  have hread : (member.1, member.2.option) ∈ withoutComment (e.table o refRealloc) := by
    rw [withoutComment_table]
    exact List.mem_map_of_mem (f := fun member => (member.1, member.2.option)) hmember
  have htable := (List.mem_filter.mp hread).1
  have hkeys : keysOf ((e.table o refRealloc).map fun option => (option.1, option.2.item o)) =
      keysOf (e.table o refRealloc) := by
    simp [keysOf]
  rw [built_eq refRealloc hhostgroups hservicegroups hvariables hurls, n2aAddOptionsToEvent_eq,
    optionEntries_none]
  refine jsonObjectGet_enterAll (hkeys ▸ hnodup) ?_ (hproper _ (List.mem_map_of_mem htable))
  exact List.mem_map_of_mem (f := fun option => (option.1, option.2.item o)) htable

end NebEvent

/-- The key of the member is there unless it is a NULL string, and under it its value. -/
def Carries (jdata : JsonObject) (member : CString × Member) : Prop :=
  (member.1 ∈ jdata.keys ↔ member.2.value.isSome) ∧
    jsonObjectGet jdata member.1 = member.2.value

/-- The fields carry the members exactly if an `int` can hold every `time_t` and every
`unsigned long` among them. -/
theorem fields_exact_iff {o : Options} (hhostgroups : o.hostgroups = 0)
    (hservicegroups : o.servicegroups = 0) (hvariables : o.customVariables = 0)
    (hurls : o.urls = 0) (refRealloc : Nat → Bool) (e : NebEvent) :
    (∀ member ∈ e.members o refRealloc, Carries (e.built o refRealloc) member) ↔
      ∀ member ∈ e.members o refRealloc, member.2.Fits := by
  refine forall₂_congr fun member hmember => ?_
  have hget := e.built_get refRealloc hhostgroups hservicegroups hvariables hurls hmember
  rw [Carries, ← jsonObjectGet_isSome_iff, hget, ← Member.item_option_iff o]
  constructor
  · exact fun h => h.2
  · intro h
    rw [h]
    exact ⟨Iff.rfl, rfl⟩

theorem fields_exact_iff_load :
    Carries ((NebEvent.serviceCheck loadCheck).built Options.default fun _ => true)
      (.lit "timestamp", .timeT 1325376000) := by
  have hfits : ∀ member ∈ (NebEvent.serviceCheck loadCheck).members Options.default fun _ => true,
      member.2.Fits := by
    simp only [NebEvent.members, serviceCheckMembers, List.forall_mem_cons, Member.Fits, true_and]
    exact ⟨by decide, fun member hmember => absurd hmember List.not_mem_nil⟩
  apply (fields_exact_iff rfl rfl rfl rfl (fun _ => true) (.serviceCheck loadCheck)).mpr hfits
  simp [NebEvent.members, serviceCheckMembers, loadCheck]

/-- A downtime that ends in 2040. -/
def longDowntime : DowntimeData where
  type := downtimeAdd
  timestamp := 1325376000
  downtimeType := hostDowntime
  hostName := some (.lit "srv1")
  serviceDescription := none
  entryTime := 1325376000
  authorName := some (.lit "admin")
  commentData := some (.lit "decommissioned")
  startTime := 1325376000
  endTime := 2208988800
  fixed := 1
  duration := 883612800
  downtimeId := 17

/-- Its end is reported as one in 1903. -/
theorem longDowntime_end_wraps :
    ∃ member ∈ (NebEvent.other (.downtime longDowntime)).members Options.default fun _ => true,
      ¬ Carries ((NebEvent.other (.downtime longDowntime)).built Options.default fun _ => true)
        member := by
  have hread : jsonObjectGet (downtimeJson Options.default longDowntime) (.lit "end") =
      some (.integer (-2085978496)) := by decide +kernel
  have hvalue : (Member.timeT longDowntime.endTime).value = some (.integer 2208988800) := by decide
  refine ⟨(.lit "end", .timeT longDowntime.endTime), ?_, fun hcarries => ?_⟩
  · simp [NebEvent.members, downtimeMembers]
  · have hsame : jsonObjectGet (downtimeJson Options.default longDowntime) (.lit "end") =
        (Member.timeT longDowntime.endTime).value := hcarries.2
    rw [hread, hvalue] at hsame
    exact absurd hsame (by decide)

end Neb2Amqp
