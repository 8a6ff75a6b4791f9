import Neb2Amqp.Events.Texts
import Neb2Amqp.Json.Builders

/-!
# The events of host checks, acknowledgements and downtimes

Each hands at most one message to `n2a_send_event`.
-/

namespace Neb2Amqp

open CLib

/-- `NEBTYPE_HOSTCHECK_PROCESSED`. -/
def hostcheckProcessed : Int32 := 801

/-- `NEBTYPE_ACKNOWLEDGEMENT_ADD`. -/
def acknowledgementAdd : Int32 := 1700

/-- `NEBTYPE_DOWNTIME_ADD`. -/
def downtimeAdd : Int32 := 1100

def hostCheckKey (o : Options) (realloc : Nat → Bool) (c : HostCheckData) : Option CString :=
  routingKey o realloc
    [o.connector, o.eventsourceName, some (.lit "check"), some (.lit "component"), c.hostName]

/-- NULL for an acknowledgement of another type. -/
def acknowledgementKey (o : Options) (realloc : Nat → Bool) (c : AcknowledgementData) :
    Option CString :=
  if c.acknowledgementType = hostAcknowledgement then
    routingKey o realloc
      [o.connector, o.eventsourceName, some (.lit "ack"), some (.lit "component"), c.hostName]
  else if c.acknowledgementType = serviceAcknowledgement then
    routingKey o realloc
      [o.connector, o.eventsourceName, some (.lit "ack"), some (.lit "resource"), c.hostName,
        c.serviceDescription]
  else none

/-- NULL for a downtime of another type. -/
def downtimeKey (o : Options) (realloc : Nat → Bool) (c : DowntimeData) : Option CString :=
  if c.downtimeType = hostDowntime then
    routingKey o realloc
      [o.connector, o.eventsourceName, some (.lit "downtime"), some (.lit "component"), c.hostName]
  else if c.downtimeType = serviceDowntime then
    routingKey o realloc
      [o.connector, o.eventsourceName, some (.lit "downtime"), some (.lit "resource"), c.hostName,
        c.serviceDescription]
  else none

def hostCheckMessages (printf : UInt64 → Option CString) (o : Options) (realloc : Nat → Bool)
    (c : HostCheckData) : List Message :=
  if c.type = hostcheckProcessed then
    [⟨hostCheckKey o realloc c, (n2aNebstructHostCheckDataToJson printf o c).2,
      hostCheckJson printf o c, none⟩]
  else []

/-- `refRealloc` is for the `realloc` calls of the builder, which joins a key of its own. -/
def acknowledgementMessages (printf : UInt64 → Option CString) (o : Options)
    (realloc refRealloc : Nat → Bool) (c : AcknowledgementData) : List Message :=
  if c.type = acknowledgementAdd then
    [⟨acknowledgementKey o realloc c, (n2aNebstructAcknowlegementDataToJson printf o refRealloc c).2,
      acknowledgementJson o refRealloc c, none⟩]
  else []

def downtimeMessages (printf : UInt64 → Option CString) (o : Options) (realloc : Nat → Bool)
    (c : DowntimeData) : List Message :=
  if c.type = downtimeAdd then
    [⟨downtimeKey o realloc c, (n2aNebstructDowntimeDataToJson printf o c).2, downtimeJson o c, none⟩]
  else []

def n2aEventHostCheck (printf : UInt64 → Option CString) (o : Options) (realloc : Nat → Bool)
    (w : Env) (c : HostCheckData) (s : State) : Except Fault State :=
  (hostCheckMessages printf o realloc c).foldlM (sendMessage o w) s

def n2aEventAcknowledgement (printf : UInt64 → Option CString) (o : Options)
    (realloc refRealloc : Nat → Bool) (w : Env) (c : AcknowledgementData) (s : State) :
    Except Fault State :=
  (acknowledgementMessages printf o realloc refRealloc c).foldlM (sendMessage o w) s

def n2aEventDowntime (printf : UInt64 → Option CString) (o : Options) (realloc : Nat → Bool)
    (w : Env) (c : DowntimeData) (s : State) : Except Fault State :=
  (downtimeMessages printf o realloc c).foldlM (sendMessage o w) s

section
variable {printf : UInt64 → Option CString} {o : Options} {realloc : Nat → Bool} {key : CString}

theorem foldlM_sendMessage_ite {handled : Prop} [Decidable handled] {m : Message}
    (hkey : m.key = some key) (w : Env) (s : State) :
    (if handled then [m] else []).foldlM (sendMessage o w) s =
      .ok (s.run o w ((if handled then [m] else []).map fun m => .sendEvent ⟨key, m.payload⟩)) := by
  apply foldlM_sendMessage
  split
  · exact List.forall_mem_singleton.mpr hkey
  · exact fun m hm => absurd hm List.not_mem_nil

theorem n2aEventHostCheck_run {c : HostCheckData} (hkey : hostCheckKey o realloc c = some key)
    (w : Env) (s : State) :
    n2aEventHostCheck printf o realloc w c s =
      .ok (s.run o w ((hostCheckMessages printf o realloc c).map fun m =>
        .sendEvent ⟨key, m.payload⟩)) :=
  foldlM_sendMessage_ite hkey w s

theorem n2aEventAcknowledgement_run {refRealloc : Nat → Bool} {c : AcknowledgementData}
    (hkey : acknowledgementKey o realloc c = some key) (w : Env) (s : State) :
    n2aEventAcknowledgement printf o realloc refRealloc w c s =
      .ok (s.run o w ((acknowledgementMessages printf o realloc refRealloc c).map fun m =>
        .sendEvent ⟨key, m.payload⟩)) :=
  foldlM_sendMessage_ite hkey w s

theorem n2aEventDowntime_run {c : DowntimeData} (hkey : downtimeKey o realloc c = some key)
    (w : Env) (s : State) :
    n2aEventDowntime printf o realloc w c s =
      .ok (s.run o w ((downtimeMessages printf o realloc c).map fun m =>
        .sendEvent ⟨key, m.payload⟩)) :=
  foldlM_sendMessage_ite hkey w s

end

/-! ## All events together -/

inductive OtherEvent
  | hostCheck (c : HostCheckData)
  | acknowledgement (c : AcknowledgementData)
  | downtime (c : DowntimeData)

inductive NebEvent
  | serviceCheck (c : ServiceCheckData)
  | other (e : OtherEvent)

namespace OtherEvent

/-- The type of the event is the one its function looks for. -/
def Handled : OtherEvent → Prop
  | .hostCheck c => c.type = hostcheckProcessed
  | .acknowledgement c => c.type = acknowledgementAdd
  | .downtime c => c.type = downtimeAdd

variable (printf : UInt64 → Option CString) (o : Options) (realloc refRealloc : Nat → Bool)

def messages : OtherEvent → List Message
  | .hostCheck c => hostCheckMessages printf o realloc c
  | .acknowledgement c => acknowledgementMessages printf o realloc refRealloc c
  | .downtime c => downtimeMessages printf o realloc c

/-- The object the builder fills. -/
def json : OtherEvent → JsonObject
  | .hostCheck c => hostCheckJson printf o c
  | .acknowledgement c => acknowledgementJson o refRealloc c
  | .downtime c => downtimeJson o c

/-- What the builder leaves in its buffer. -/
def buffer : OtherEvent → CString
  | .hostCheck c => (n2aNebstructHostCheckDataToJson printf o c).2
  | .acknowledgement c => (n2aNebstructAcknowlegementDataToJson printf o refRealloc c).2
  | .downtime c => (n2aNebstructDowntimeDataToJson printf o c).2

/-- The calls of `json_object_set` the builder makes. -/
def entered : OtherEvent → List Entry
  | .hostCheck c =>
      hostCheckEntries o c ++ optionEntries o (hostCheckAdditionals c) (hostCheckCmp printf o c)
  | .acknowledgement c => optionEntries o (acknowledgementOptions o refRealloc c) none
  | .downtime c => optionEntries o (downtimeOptions o c) none

theorem buffer_eq (e : OtherEvent) :
    e.buffer printf o refRealloc = payloadOf (jsonDumps printf (e.json printf o refRealloc)) := by
  cases e <;> rfl

theorem json_eq (e : OtherEvent) :
    e.json printf o refRealloc = enterAll jsonObject (e.entered printf o refRealloc) := by
  cases e with
  | hostCheck c =>
      rw [entered, enterAll_append, ← hostCheckBase_eq, ← n2aAddOptionsToEvent_eq]
      rfl
  | acknowledgement c =>
      rw [entered, ← n2aAddOptionsToEvent_eq]
      rfl
  | downtime c =>
      rw [entered, ← n2aAddOptionsToEvent_eq]
      rfl

theorem messages_payload (e : OtherEvent) :
    (e.Handled → ∃ key, e.messages printf o realloc refRealloc =
      [⟨key, e.buffer printf o refRealloc, e.json printf o refRealloc, none⟩]) ∧
    (¬ e.Handled → e.messages printf o realloc refRealloc = []) := by
  cases e with
  | hostCheck c => exact ⟨fun h => ⟨_, if_pos h⟩, fun h => if_neg h⟩
  | acknowledgement c => exact ⟨fun h => ⟨_, if_pos h⟩, fun h => if_neg h⟩
  | downtime c => exact ⟨fun h => ⟨_, if_pos h⟩, fun h => if_neg h⟩

end OtherEvent

namespace NebEvent

def Handled : NebEvent → Prop
  | .serviceCheck c => c.type = servicecheckProcessed
  | .other e => e.Handled

variable (printf : UInt64 → Option CString) (o : Options) (realloc refRealloc : Nat → Bool)

def messages : NebEvent → Except Fault (List Message)
  | .serviceCheck c => serviceCheckMessages printf o realloc c
  | .other e => .ok (e.messages printf o realloc refRealloc)

/-- A service check whose builder returns 1, and every other event. -/
def Single : NebEvent → Prop
  | .serviceCheck c =>
      ∃ jdata size, n2aNebstructServiceCheckDataToJson printf o c = .ok (1, jdata, size)
  | .other _ => True

/-- The calls of `json_object_set` behind a single message. -/
def entered : NebEvent → List Entry
  | .serviceCheck c =>
      serviceCheckEntries o c ++
        if toInt (textLength c) > textRoom printf o c then []
        else optionEntries o (serviceCheckAdditionals c) none
  | .other e => e.entered printf o refRealloc

variable {printf o}

theorem toJson_one {c : ServiceCheckData} {jdata : JsonObject} {size : Nat}
    (h : n2aNebstructServiceCheckDataToJson printf o c = .ok (1, jdata, size)) :
    jdata = enterAll jsonObject (entered printf o refRealloc (.serviceCheck c)) ∧
      size = xstrlen (jsonDumps printf jdata) := by
  by_cases hseveral : toInt (textLength c) > textRoom printf o c
  · rw [toJson_several hseveral] at h
    obtain ⟨quotient, -, h⟩ := bind_ok h
    obtain ⟨-, rfl, rfl⟩ : _ ∧ serviceCheckBase o c = jdata ∧ baseSize printf o c = size := by
      simpa only [Except.ok.injEq, Prod.mk.injEq] using h
    rw [entered, if_pos hseveral, List.append_nil, ← serviceCheckBase_eq]
    exact ⟨rfl, rfl⟩
  · rw [toJson_single hseveral] at h
    cases h
    rw [entered, if_neg hseveral, enterAll_append, ← serviceCheckBase_eq, ← n2aAddOptionsToEvent_eq]
    exact ⟨rfl, rfl⟩

/-- An event that is handled in one message sends the dump of its object. -/
theorem messages_single {e : NebEvent} (hsingle : e.Single printf o) (hhandled : e.Handled) :
    ∃ m, e.messages printf o realloc refRealloc = .ok [m] ∧
      m.payload = payloadOf (jsonDumps printf m.jdata) ∧
      m.jdata = enterAll jsonObject (e.entered printf o refRealloc) := by
  cases e with
  | serviceCheck c =>
      obtain ⟨jdata, size, hjson⟩ := hsingle
      obtain ⟨hjdata, hsize⟩ := toJson_one refRealloc hjson
      refine ⟨⟨serviceCheckKey o realloc c, payloadOf (jsonDumps printf jdata), jdata, none⟩,
        ?_, rfl, hjdata⟩
      have hprocessed : c.type = servicecheckProcessed := hhandled
      rw [messages, serviceCheckMessages, if_pos hprocessed, hjson, hsize]
      rfl
  | other e =>
      obtain ⟨key, hmessages⟩ := (e.messages_payload printf o realloc refRealloc).1 hhandled
      refine ⟨_, congrArg Except.ok hmessages, e.buffer_eq printf o refRealloc, ?_⟩
      exact e.json_eq printf o refRealloc

theorem messages_of_not_handled {e : NebEvent} (h : ¬ e.Handled) :
    e.messages printf o realloc refRealloc = .ok [] := by
  cases e with
  | serviceCheck c => exact if_neg h
  | other e => exact congrArg Except.ok ((e.messages_payload printf o realloc refRealloc).2 h)

end NebEvent

end Neb2Amqp
