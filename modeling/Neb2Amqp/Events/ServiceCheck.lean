import Neb2Amqp.Amqp.State
import Neb2Amqp.Json.ServiceCheck
import Neb2Amqp.Library.Run

/-!
# The event of a service check

`n2a_event_service_check` and its macro `split_message`. The messages are listed
in the order in which they are handed to `n2a_send_event`.
-/

namespace Neb2Amqp

open CLib

/-- The three texts of a check. -/
inductive TextField
  | longOutput
  | output
  | perfData
  deriving DecidableEq

def TextField.name : TextField → CString
  | .longOutput => .lit "long_output"
  | .output => .lit "output"
  | .perfData => .lit "perf_data"

def ServiceCheckData.text (c : ServiceCheckData) : TextField → Option CString
  | .longOutput => c.longOutput
  | .output => c.output
  | .perfData => c.perfData

/-- The arguments of a call of `n2a_send_event`, with the object behind the payload
and the text whose loop sent it, if it was sent by one. -/
structure Message where
  key : Option CString
  payload : CString
  jdata : JsonObject
  part : Option TextField

/-- `max_size` in bytes is what is left of a key that is longer. The last call of
`realloc` may fail like those before. -/
def routingKey (o : Options) (realloc : Nat → Bool) (parts : List (Option CString)) :
    Option CString :=
  let key := n2aStrJoin realloc (.lit ".") parts
  if exceeds (xstrlen key) o.maxSize then
    if realloc parts.length then key.map (·.take o.maxSize.toInt.toNat) else none
  else key

def serviceCheckKey (o : Options) (realloc : Nat → Bool) (c : ServiceCheckData) : Option CString :=
  routingKey o realloc
    [o.connector, o.eventsourceName, some (.lit "check"), some (.lit "resource"), c.hostName,
      c.serviceDescription]

/-- The `while` loop of `split_message`, with the number of rounds left. -/
def splitLoop (printf : UInt64 → Option CString) (key message : Option CString) (field : TextField)
    (left : Int32) : Nat → Int32 → JsonObject → Except Fault (List Message × JsonObject)
  | 0, _, jdata => .ok ([], jdata)
  | rounds + 1, i, jdata => do
      let jdata ← n2aNebstructServiceCheckDataUpdateJson jdata message field.name left i
      let sent : Message := ⟨key, payloadOf (jsonDumps printf jdata), jdata, some field⟩
      let (rest, jdata) ← splitLoop printf key message field left rounds (i + 1) jdata
      return (sent :: rest, jdata)

def splitMessage (printf : UInt64 → Option CString) (key message : Option CString)
    (field : TextField) (left : Int32) (jdata : JsonObject) :
    Except Fault (List Message × JsonObject) := do
  let temp ← intDiv (toInt (xstrlen message)) left
  splitLoop printf key message field left (temp + 1).toInt.toNat 0 jdata

/-- The messages of a check that is split. The first three divisions are those of
the number of messages that is logged. -/
def splitMessages (printf : UInt64 → Option CString) (key : Option CString) (c : ServiceCheckData)
    (left : Int32) (jdata : JsonObject) : Except Fault (List Message) := do
  let _ ← intDiv (toInt (xstrlen c.longOutput)) left
  let _ ← intDiv (toInt (xstrlen c.output)) left
  let _ ← intDiv (toInt (xstrlen c.perfData)) left
  let (longOutput, jdata) ← splitMessage printf key c.longOutput .longOutput left jdata
  let (output, jdata) ← splitMessage printf key c.output .output left jdata
  let (perfData, _) ← splitMessage printf key c.perfData .perfData left jdata
  return longOutput ++ output ++ perfData

/-- `NEBTYPE_SERVICECHECK_PROCESSED`. -/
def servicecheckProcessed : Int32 := 701

/-- The calls of `n2a_send_event` that `n2a_event_service_check` makes. -/
def serviceCheckMessages (printf : UInt64 → Option CString) (o : Options) (realloc : Nat → Bool)
    (c : ServiceCheckData) : Except Fault (List Message) := do
  if c.type = servicecheckProcessed then
    let (nbmsg, jdata, messageSize) ← n2aNebstructServiceCheckDataToJson printf o c
    let key := serviceCheckKey o realloc c
    if nbmsg = 1 then
      return [⟨key, .snprintfS (messageSize + 1) (jsonDumps printf jdata), jdata, none⟩]
    else splitMessages printf key c (leftOf o messageSize) jdata
  else return []

/-- A NULL key is not followed into `n2a_send_event`, which would read through it. -/
def sendMessage (o : Options) (w : Env) (s : State) (m : Message) : Except Fault State :=
  match m.key with
  | none => .error .nullKey
  | some key => .ok (n2aSendEvent o w ⟨key, m.payload⟩ s).2

def n2aEventServiceCheck (printf : UInt64 → Option CString) (o : Options) (realloc : Nat → Bool)
    (w : Env) (c : ServiceCheckData) (s : State) : Except Fault State := do
  let messages ← serviceCheckMessages printf o realloc c
  messages.foldlM (sendMessage o w) s

/-! ## A check is a run of `n2a_send_event` -/

section
variable {printf : UInt64 → Option CString} {key message : Option CString} {field : TextField}
  {left : Int32} {jdata jdata' : JsonObject} {messages : List Message}

theorem splitLoop_key {rounds : Nat} {i : Int32}
    (h : splitLoop printf key message field left rounds i jdata = .ok (messages, jdata')) :
    ∀ m ∈ messages, m.key = key := by
  induction rounds generalizing i jdata messages with
  | zero =>
      cases h
      simp
  | succ rounds ih =>
      rw [splitLoop] at h
      obtain ⟨updated, -, h⟩ := bind_ok h
      obtain ⟨⟨rest, last⟩, hrest, h⟩ := bind_ok h
      cases h
      exact List.forall_mem_cons.mpr ⟨rfl, ih hrest⟩

theorem splitMessage_key
    (h : splitMessage printf key message field left jdata = .ok (messages, jdata')) :
    ∀ m ∈ messages, m.key = key := by
  obtain ⟨temp, -, h⟩ := bind_ok h
  exact splitLoop_key h

theorem mem_splitMessages {c : ServiceCheckData} {m : Message}
    (h : splitMessages printf key c left jdata = .ok messages) (hm : m ∈ messages) :
    ∃ field before sent after,
      splitMessage printf key (c.text field) field left before = .ok (sent, after) ∧ m ∈ sent := by
  obtain ⟨_, -, h⟩ := bind_ok h
  obtain ⟨_, -, h⟩ := bind_ok h
  obtain ⟨_, -, h⟩ := bind_ok h
  obtain ⟨⟨longOutput, jdata₁⟩, hlong, h⟩ := bind_ok h
  obtain ⟨⟨output, jdata₂⟩, houtput, h⟩ := bind_ok h
  obtain ⟨⟨perfData, jdata₃⟩, hperf, h⟩ := bind_ok h
  cases h
  rcases List.mem_append.mp hm with hm | hm
  · rcases List.mem_append.mp hm with hm | hm
    · exact ⟨.longOutput, _, _, _, hlong, hm⟩
    · exact ⟨.output, _, _, _, houtput, hm⟩
  · exact ⟨.perfData, _, _, _, hperf, hm⟩

theorem splitMessages_key {c : ServiceCheckData}
    (h : splitMessages printf key c left jdata = .ok messages) : ∀ m ∈ messages, m.key = key := by
  intro m hm
  obtain ⟨field, before, sent, after, hsplit, hsent⟩ := mem_splitMessages h hm
  exact splitMessage_key hsplit m hsent

theorem serviceCheckMessages_key {o : Options} {realloc : Nat → Bool} {c : ServiceCheckData}
    (h : serviceCheckMessages printf o realloc c = .ok messages) :
    ∀ m ∈ messages, m.key = serviceCheckKey o realloc c := by
  unfold serviceCheckMessages at h
  split at h
  · obtain ⟨⟨nbmsg, jdata, messageSize⟩, -, h⟩ := bind_ok h
    simp only [] at h
    split at h
    · cases h
      simp
    · exact splitMessages_key h
  · cases h
    simp

end

theorem foldlM_sendMessage {o : Options} {messages : List Message} {key : CString}
    (hkeys : ∀ m ∈ messages, m.key = some key) (w : Env) (s : State) :
    messages.foldlM (sendMessage o w) s =
      .ok (s.run o w (messages.map fun m => .sendEvent ⟨key, m.payload⟩)) := by
  induction messages generalizing s with
  | nil => rfl
  | cons m messages ih =>
      obtain ⟨hm, hrest⟩ := List.forall_mem_cons.mp hkeys
      have hsend : sendMessage o w s m = .ok (n2aSendEvent o w ⟨key, m.payload⟩ s).2 := by
        rw [sendMessage, hm]
      rw [List.foldlM_cons, hsend]
      exact ih hrest _

/-- All messages of a check go to `n2a_send_event` under the same key, so that what
holds of runs of it holds of checks. -/
theorem n2aEventServiceCheck_run {printf : UInt64 → Option CString} {o : Options}
    {realloc : Nat → Bool} {c : ServiceCheckData} {messages : List Message} {key : CString}
    (hmessages : serviceCheckMessages printf o realloc c = .ok messages)
    (hkey : serviceCheckKey o realloc c = some key) (w : Env) (s : State) :
    n2aEventServiceCheck printf o realloc w c s =
      .ok (s.run o w (messages.map fun m => .sendEvent ⟨key, m.payload⟩)) := by
  rw [n2aEventServiceCheck, hmessages]
  apply foldlM_sendMessage
  intro m hm
  rw [serviceCheckMessages_key hmessages m hm, hkey]

end Neb2Amqp
