import Neb2Amqp.Json.Entries

/-!
# The JSON of a service check

`n2a_nebstruct_service_check_data_to_json` and the function that puts one chunk
of a text into the object it built.
-/

namespace Neb2Amqp

open CLib

/-- Where the code leaves defined behaviour: a division that overflows or has
divisor 0, and a buffer on the stack without a byte. -/
inductive Fault
  | division
  | stackSize
  | nullKey
  deriving DecidableEq

/-- `a / b` on `int`. -/
def intDiv (a b : Int32) : Except Fault Int32 :=
  if b = 0 ∨ (a = Int32.minValue ∧ b = -1) then .error .division else .ok (a / b)

/-- `(int) n`. -/
def toInt (n : Nat) : Int32 := .ofNat n

/-- What the module reads of a `nebstruct_service_check_data`. Of the time stamp
it is the seconds; reals are given by their bits. -/
structure ServiceCheckData where
  type : Int32
  timestamp : Int64
  hostName : Option CString
  serviceDescription : Option CString
  checkType : Int32
  currentAttempt : Int32
  maxAttempts : Int32
  stateType : Int32
  state : Int32
  commandName : Option CString
  executionTime : UInt64
  latency : UInt64
  output : Option CString
  longOutput : Option CString
  perfData : Option CString
  object : ServiceObject

/-- The time stamp is read through an `int *`, which finds its low half. -/
def serviceCheckOptions (o : Options) (c : ServiceCheckData) : List (CString × EventOption) :=
  [(.lit "connector", .stringNocheck o.connector),
    (.lit "connector_name", .stringNocheck o.eventsourceName),
    (.lit "event_type", .stringNocheck (some (.lit "check"))),
    (.lit "source_type", .stringNocheck (some (.lit "resource"))),
    (.lit "component", .stringNocheck c.hostName),
    (.lit "resource", .stringNocheck c.serviceDescription),
    (.lit "address", .stringNocheck c.object.host.address),
    (.lit "timestamp", .integer c.timestamp.toInt32),
    (.lit "state", .integer c.state),
    (.lit "state_type", .integer c.stateType),
    (.lit "check_type", .integer c.checkType),
    (.lit "current_attempt", .integer c.currentAttempt),
    (.lit "max_attempts", .integer c.maxAttempts),
    (.lit "execution_time", .real c.executionTime),
    (.lit "latency", .real c.latency),
    (.lit "command_name", .stringNocheck c.commandName)]

def serviceCheckAdditionals (c : ServiceCheckData) : List (CString × EventOption) :=
  [(.lit "output", .stringNocheck c.output),
    (.lit "long_output", .stringNocheck c.longOutput),
    (.lit "perf_data", .stringNocheck c.perfData)]

/-- The object before its texts. -/
def serviceCheckBase (o : Options) (c : ServiceCheckData) : JsonObject :=
  let jdata := n2aAddOptionsToEvent o (serviceCheckOptions o c) jsonObject none
  let jdata := n2aNebstructAddHostgroups o jdata c.object.host
  let jdata := n2aNebstructAddServicegroups o jdata c.object
  let jdata := n2aNebstructAddCustomVariables o jdata c.object.customVariables
  n2aNebstructAddUrls o jdata c.object.actionUrl c.object.notesUrl

/-- What is entered before the texts. -/
def serviceCheckEntries (o : Options) (c : ServiceCheckData) : List Entry :=
  optionEntries o (serviceCheckOptions o c) none ++ hostgroupEntries o c.object.host ++
    servicegroupEntries o c.object ++ customVariableEntries o c.object.customVariables ++
    urlEntries o c.object.actionUrl c.object.notesUrl

theorem serviceCheckBase_eq (o : Options) (c : ServiceCheckData) :
    serviceCheckBase o c = enterAll jsonObject (serviceCheckEntries o c) := by
  simp only [serviceCheckBase, serviceCheckEntries, enterAll_append, n2aAddOptionsToEvent_eq,
    n2aNebstructAddHostgroups_eq, n2aNebstructAddServicegroups_eq,
    n2aNebstructAddCustomVariables_eq, n2aNebstructAddUrls_eq]

theorem serviceCheckBase_ne_nil (o : Options) (c : ServiceCheckData) :
    (serviceCheckBase o c).pairs ≠ [] := by
  -- the event type is always there
  have hevent : (CString.lit "event_type", some (JsonValue.string (.lit "check"))) ∈
      serviceCheckEntries o c := by
    simp [serviceCheckEntries, optionEntries, serviceCheckOptions, EventOption.item,
      jsonStringNocheck]
  rw [serviceCheckBase_eq]
  exact enterAll_ne_nil hevent (by decide)

/-- `message_size` before the texts. -/
def baseSize (printf : UInt64 → Option CString) (o : Options) (c : ServiceCheckData) : Nat :=
  xstrlen (jsonDumps printf (serviceCheckBase o c))

def leftOf (o : Options) (messageSize : Nat) : Int32 := o.maxSize - toInt messageSize

/-- `rest`. -/
def textLength (c : ServiceCheckData) : Nat :=
  xstrlen c.longOutput + xstrlen c.output + xstrlen c.perfData

/-- `nbmsg`, `*pdata` and `*message_size`. -/
def n2aNebstructServiceCheckDataToJson (printf : UInt64 → Option CString) (o : Options)
    (c : ServiceCheckData) : Except Fault (Int32 × JsonObject × Nat) :=
  let jdata := serviceCheckBase o c
  let messageSize := baseSize printf o c
  let left := leftOf o messageSize
  if toInt (textLength c) > left then do
    let messages ← intDiv (toInt (textLength c)) left
    return (messages + 1, jdata, messageSize)
  else
    let jdata := n2aAddOptionsToEvent o (serviceCheckAdditionals c) jdata none
    return (1, jdata, xstrlen (jsonDumps printf jdata))

/-- Where the chunk number `cpt` is read from. -/
def chunkOffset (size cpt : Int32) : Int32 := cpt * (size - 1)

/-- The chunk number `cpt` of a text, as `snprintf` leaves it in a buffer of `size` bytes. -/
def chunkOf (message : Option CString) (size cpt : Int32) : CString :=
  .snprintfS size.toInt.toNat
    (message.map fun text => text.drop (chunkOffset size cpt).toInt.toNat)

def n2aNebstructServiceCheckDataUpdateJson (jdata : JsonObject) (message : Option CString)
    (field : CString) (size cpt : Int32) : Except Fault JsonObject :=
  if size < 1 then .error .stackSize
  else .ok (jsonObjectSet (jsonObjectDel jdata field) field (some (.string (chunkOf message size cpt))))

end Neb2Amqp
