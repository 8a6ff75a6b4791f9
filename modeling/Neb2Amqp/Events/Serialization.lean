import Neb2Amqp.Events.OtherEvents
import Neb2Amqp.Events.Payload
import Neb2Amqp.Events.SplitText

/-!
# Whether the payload is the whole object

The strings of an event are entered as they are, and nothing looks at whether the dump
of the object succeeded: a string that is no UTF-8 leaves an empty payload.
-/

namespace Neb2Amqp

open CLib

theorem NebEvent.exists_event_type (printf : UInt64 → Option CString) (o : Options)
    (refRealloc : Nat → Bool) (e : NebEvent) :
    ∃ type, (.lit "event_type", some (.string type)) ∈ e.entered printf o refRealloc := by
  cases e with
  | serviceCheck c =>
      refine ⟨.lit "check", ?_⟩
      simp [entered, serviceCheckEntries, optionEntries, serviceCheckOptions, EventOption.item,
        jsonStringNocheck]
  | other e =>
      cases e with
      | hostCheck c =>
          refine ⟨.lit "check", ?_⟩
          simp [entered, OtherEvent.entered, hostCheckEntries, optionEntries, hostCheckOptions,
            EventOption.item, jsonStringNocheck]
      | acknowledgement c =>
          refine ⟨.lit "ack", ?_⟩
          simp [entered, OtherEvent.entered, optionEntries, acknowledgementOptions,
            EventOption.item, jsonStringNocheck]
      | downtime c =>
          refine ⟨.lit "downtime", ?_⟩
          simp [entered, OtherEvent.entered, optionEntries, downtimeOptions, EventOption.item,
            jsonStringNocheck]

theorem NebEvent.entered_ne_nil (printf : UInt64 → Option CString) (o : Options)
    (refRealloc : Nat → Bool) (e : NebEvent) :
    (enterAll jsonObject (e.entered printf o refRealloc)).pairs ≠ [] := by
  obtain ⟨type, hentry⟩ := e.exists_event_type printf o refRealloc
  exact enterAll_ne_nil hentry (by decide)

/-- How long the JSON of an object built from nothing is. -/
def enteredSize (printf : UInt64 → Option CString) (entries : List Entry) : Nat :=
  ((lasts (effective entries)).map (entrySize printf)).sum

theorem jsonDumps_enterAll_strlen {printf : UInt64 → Option CString} {entries : List Entry}
    {text : CString} (h : jsonDumps printf (enterAll jsonObject entries) = some text)
    (hne : (enterAll jsonObject entries).pairs ≠ []) : text.strlen = enteredSize printf entries := by
  rw [jsonDumps_strlen h hne]
  exact ((enterAll_jsonObject_perm entries).map (entrySize printf)).sum_eq

/-- The copy of a dump is the whole dump as long as all strings that stay in the object
are UTF-8 and its text is not longer than `xstrlen` counts. -/
theorem payloadOf_enterAll_iff {printf : UInt64 → Option CString} (hreals : WritesReals printf)
    {entries : List Entry} (hne : (enterAll jsonObject entries).pairs ≠ []) :
    jsonDumps printf (enterAll jsonObject entries) =
        some (payloadOf (jsonDumps printf (enterAll jsonObject entries))) ↔
      (∀ p ∈ lasts (effective entries), ∀ s ∈ p.2.texts, utf8CheckString s = true) ∧
        enteredSize printf entries ≤ uintMax := by
  have hproper := jsonDumps_enterAll_isSome_iff hreals entries
  rw [← hproper]
  cases htext : jsonDumps printf (enterAll jsonObject entries) with
  | none => simp
  | some text =>
      rw [← jsonDumps_enterAll_strlen htext hne, ← payloadOf_eq_iff, Option.some.injEq, eq_comm]
      simp

theorem loadCheck_single : (NebEvent.serviceCheck loadCheck).Single loadPrintf (limitedTo 8192) :=
  ⟨_, _, toJson_single (by rw [loadCheck_room]; decide)⟩

/-- A host check whose plugin reported in Latin-1. -/
def latinCheck : HostCheckData where
  type := hostcheckProcessed
  timestamp := 1325376000
  hostName := some (.lit "srv1")
  currentAttempt := 1
  checkType := 0
  maxAttempts := 3
  stateType := 1
  state := 0
  commandName := some (.lit "check-host-alive")
  executionTime := 0x3FD0000000000000
  latency := 0
  output := some (.ofBytes [80, 73, 78, 71, 32, 114, 233, 117, 115, 115, 105])
  longOutput := some (.lit "")
  perfData := some (.lit "")
  object := ⟨⟨some (.lit "192.0.2.7"), []⟩, [], none, none⟩

end Neb2Amqp
