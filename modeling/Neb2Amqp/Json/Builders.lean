import Neb2Amqp.Json.ServiceCheck

/-!
# The JSON of the other events

The builders for host checks, acknowledgements and downtimes. Each fills one object and
leaves its dump in a buffer of the size of the text.
-/

namespace Neb2Amqp

open CLib

/-! ## Host checks -/

/-- What the builder reads of the host besides. -/
structure CheckedHost extends HostObject where
  customVariables : List CustomVariablesMember
  actionUrl : Option CString
  notesUrl : Option CString

/-- What the module reads of a `nebstruct_host_check_data`. -/
structure HostCheckData where
  type : Int32
  timestamp : Int64
  hostName : Option CString
  currentAttempt : Int32
  checkType : Int32
  maxAttempts : Int32
  stateType : Int32
  state : Int32
  commandName : Option CString
  executionTime : UInt64
  latency : UInt64
  output : Option CString
  longOutput : Option CString
  perfData : Option CString
  object : CheckedHost

def hostCheckOptions (o : Options) (c : HostCheckData) : List (CString × EventOption) :=
  [(.lit "connector", .stringNocheck o.connector),
    (.lit "connector_name", .stringNocheck o.eventsourceName),
    (.lit "event_type", .stringNocheck (some (.lit "check"))),
    (.lit "source_type", .stringNocheck (some (.lit "component"))),
    (.lit "component", .stringNocheck c.hostName),
    (.lit "address", .stringNocheck c.object.address),
    (.lit "timestamp", .integer c.timestamp.toInt32),
    (.lit "state", .integer c.state),
    (.lit "state_type", .integer c.stateType),
    (.lit "check_type", .integer c.checkType),
    (.lit "current_attempt", .integer c.currentAttempt),
    (.lit "max_attempts", .integer c.maxAttempts),
    (.lit "execution_time", .real c.executionTime),
    (.lit "latency", .real c.latency),
    (.lit "command_name", .stringNocheck c.commandName)]

def hostCheckAdditionals (c : HostCheckData) : List (CString × EventOption) :=
  [(.lit "output", .stringNocheck c.output),
    (.lit "long_output", .stringNocheck c.longOutput),
    (.lit "perf_data", .stringNocheck c.perfData)]

/-- The object before its texts. -/
def hostCheckBase (o : Options) (c : HostCheckData) : JsonObject :=
  let jdata := n2aAddOptionsToEvent o (hostCheckOptions o c) jsonObject none
  let jdata := n2aNebstructAddHostgroups o jdata c.object.toHostObject
  let jdata := n2aNebstructAddCustomVariables o jdata c.object.customVariables
  n2aNebstructAddUrls o jdata c.object.actionUrl c.object.notesUrl

/-- What is entered before the texts. -/
def hostCheckEntries (o : Options) (c : HostCheckData) : List Entry :=
  optionEntries o (hostCheckOptions o c) none ++ hostgroupEntries o c.object.toHostObject ++
    customVariableEntries o c.object.customVariables ++
    urlEntries o c.object.actionUrl c.object.notesUrl

theorem hostCheckBase_eq (o : Options) (c : HostCheckData) :
    hostCheckBase o c = enterAll jsonObject (hostCheckEntries o c) := by
  simp only [hostCheckBase, hostCheckEntries, enterAll_append, n2aAddOptionsToEvent_eq,
    n2aNebstructAddHostgroups_eq, n2aNebstructAddCustomVariables_eq, n2aNebstructAddUrls_eq]

theorem hostCheckBase_ne_nil (o : Options) (c : HostCheckData) :
    (hostCheckBase o c).pairs ≠ [] := by
  have hevent : (CString.lit "event_type", some (JsonValue.string (.lit "check"))) ∈
      hostCheckEntries o c := by
    simp [hostCheckEntries, optionEntries, hostCheckOptions, EventOption.item, jsonStringNocheck]
  rw [hostCheckBase_eq]
  exact enterAll_ne_nil hevent (by decide)

/-- The text an option pointer leads to. -/
def EventOption.text : EventOption → Option CString
  | .stringNocheck p => p
  | .truncated p => p
  | _ => none

/-- The comparison is this way round. -/
def n2aStrMaxsize (length : Nat) (option : EventOption) : Bool := length ≤ xstrlen option.text

/-- `ref - g_options.max_size` on `size_t`. -/
def excessOf (o : Options) (ref : Nat) : Nat :=
  (UInt64.ofNat ref - o.maxSize.toInt64.toUInt64).toNat

/-- The filter of the texts, if there is one. -/
def hostCheckCmp (printf : UInt64 → Option CString) (o : Options) (c : HostCheckData) :
    Option (EventOption → Bool) :=
  let ref := xstrlen (jsonDumps printf (hostCheckBase o c))
  if toInt ref > o.maxSize then some (n2aStrMaxsize (excessOf o ref)) else none

/-- The object whose dump is left in the buffer. -/
def hostCheckJson (printf : UInt64 → Option CString) (o : Options) (c : HostCheckData) :
    JsonObject :=
  n2aAddOptionsToEvent o (hostCheckAdditionals c) (hostCheckBase o c) (hostCheckCmp printf o c)

/-- `nbmsg` and `*buffer`. -/
def n2aNebstructHostCheckDataToJson (printf : UInt64 → Option CString) (o : Options)
    (c : HostCheckData) : Int32 × CString :=
  (0, payloadOf (jsonDumps printf (hostCheckJson printf o c)))

/-! ## Acknowledgements -/

/-- What the module reads of a `nebstruct_acknowledgement_data`. -/
structure AcknowledgementData where
  type : Int32
  timestamp : Int64
  acknowledgementType : Int32
  hostName : Option CString
  serviceDescription : Option CString
  state : Int32
  authorName : Option CString
  commentData : Option CString

def hostAcknowledgement : Int32 := 0

def serviceAcknowledgement : Int32 := 1

def acknowledgementSource (c : AcknowledgementData) : Option CString :=
  if c.acknowledgementType = hostAcknowledgement then some (.lit "component")
  else if c.acknowledgementType = serviceAcknowledgement then some (.lit "resource")
  else none

/-- The routing key of the check that is acknowledged. -/
def acknowledgementRefRk (o : Options) (realloc : Nat → Bool) (c : AcknowledgementData) :
    Option CString :=
  if c.acknowledgementType = hostAcknowledgement then
    n2aStrJoin realloc (.lit ".")
      [o.connector, o.eventsourceName, some (.lit "check"), some (.lit "component"), c.hostName]
  else if c.acknowledgementType = serviceAcknowledgement then
    n2aStrJoin realloc (.lit ".")
      [o.connector, o.eventsourceName, some (.lit "check"), some (.lit "resource"), c.hostName,
        c.serviceDescription]
  else none

def acknowledgementOptions (o : Options) (realloc : Nat → Bool) (c : AcknowledgementData) :
    List (CString × EventOption) :=
  [(.lit "connector", .stringNocheck o.connector),
    (.lit "connector_name", .stringNocheck o.eventsourceName),
    (.lit "event_type", .stringNocheck (some (.lit "ack"))),
    (.lit "source_type", .stringNocheck (acknowledgementSource c)),
    (.lit "component", .stringNocheck c.hostName),
    (.lit "resource", .stringNocheck c.serviceDescription),
    (.lit "referer", .stringNocheck (acknowledgementRefRk o realloc c)),
    (.lit "ref_rk", .stringNocheck (acknowledgementRefRk o realloc c)),
    (.lit "author", .stringNocheck c.authorName),
    (.lit "state", .integer c.state),
    (.lit "state_type", .integer 1),
    (.lit "timestamp", .integer c.timestamp.toInt32),
    (.lit "output", .truncated c.commentData)]

def acknowledgementJson (o : Options) (realloc : Nat → Bool) (c : AcknowledgementData) :
    JsonObject :=
  n2aAddOptionsToEvent o (acknowledgementOptions o realloc c) jsonObject none

def n2aNebstructAcknowlegementDataToJson (printf : UInt64 → Option CString) (o : Options)
    (realloc : Nat → Bool) (c : AcknowledgementData) : Int32 × CString :=
  (1, payloadOf (jsonDumps printf (acknowledgementJson o realloc c)))

/-! ## Downtimes -/

/-- What the module reads of a `nebstruct_downtime_data`. -/
structure DowntimeData where
  type : Int32
  timestamp : Int64
  downtimeType : Int32
  hostName : Option CString
  serviceDescription : Option CString
  entryTime : Int64
  authorName : Option CString
  commentData : Option CString
  startTime : Int64
  endTime : Int64
  fixed : Int32
  duration : UInt64
  downtimeId : UInt64

def serviceDowntime : Int32 := 1

def hostDowntime : Int32 := 2

def downtimeSource (c : DowntimeData) : Option CString :=
  if c.downtimeType = hostDowntime then some (.lit "component")
  else if c.downtimeType = serviceDowntime then some (.lit "resource")
  else none

/-- All numbers are read through an `int *`, which finds the low half of the longer ones. -/
def downtimeOptions (o : Options) (c : DowntimeData) : List (CString × EventOption) :=
  [(.lit "connector", .stringNocheck o.connector),
    (.lit "connector_name", .stringNocheck o.eventsourceName),
    (.lit "event_type", .stringNocheck (some (.lit "downtime"))),
    (.lit "source_type", .stringNocheck (downtimeSource c)),
    (.lit "component", .stringNocheck c.hostName),
    (.lit "resource", .stringNocheck c.serviceDescription),
    (.lit "author", .stringNocheck c.authorName),
    (.lit "timestamp", .integer c.timestamp.toInt32),
    (.lit "output", .truncated c.commentData),
    (.lit "start", .integer c.startTime.toInt32),
    (.lit "end", .integer c.endTime.toInt32),
    (.lit "duration", .integer c.duration.toUInt32.toInt32),
    (.lit "entry", .integer c.entryTime.toInt32),
    (.lit "fixed", .boolean c.fixed),
    (.lit "downtime_id", .integer c.downtimeId.toUInt32.toInt32)]

def downtimeJson (o : Options) (c : DowntimeData) : JsonObject :=
  n2aAddOptionsToEvent o (downtimeOptions o c) jsonObject none

def n2aNebstructDowntimeDataToJson (printf : UInt64 → Option CString) (o : Options)
    (c : DowntimeData) : Int32 × CString :=
  (1, payloadOf (jsonDumps printf (downtimeJson o c)))

end Neb2Amqp
