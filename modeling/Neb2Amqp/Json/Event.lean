import Neb2Amqp.Jansson.Dump
import Neb2Amqp.Options
import Neb2Amqp.XUtils

/-!
# Filling an event

The parts of `json.c` that all builders share: the option tables and what the
module options add to an event. Memory is taken to suffice.
-/

namespace Neb2Amqp

open CLib

/-- NULL for a NULL pointer. -/
def jsonStringNocheck (value : Option CString) : Option JsonValue := value.map .string

def jsonInteger (value : Int32) : Option JsonValue := some (.integer value.toInt)

def jsonReal (value : UInt64) : Option JsonValue := some (.real value)

def n2aBoolToJson (boolean : Int32) : Option JsonValue := some (.boolean (boolean != 0))

def n2aStringToTruncatedJson (o : Options) (string : Option CString) : Option JsonValue :=
  if exceeds (xstrlen string) o.maxSize then jsonStringNocheck (some (.ofBytes []))
  else jsonStringNocheck string

/-- The callback of an entry of an option table, with what the option pointer leads to. -/
inductive EventOption
  | stringNocheck (p : Option CString)
  | truncated (p : Option CString)
  | integer (n : Int32)
  | real (value : UInt64)
  | boolean (n : Int32)

def EventOption.item (o : Options) : EventOption → Option JsonValue
  | .stringNocheck p => jsonStringNocheck p
  | .truncated p => n2aStringToTruncatedJson o p
  | .integer n => jsonInteger n
  | .real value => jsonReal value
  | .boolean n => n2aBoolToJson n

/-- An absent `cmp` lets every entry pass. -/
def n2aAddOptionsToEvent (o : Options) (options : List (CString × EventOption))
    (jdata : JsonObject) (cmp : Option (EventOption → Bool)) : JsonObject :=
  options.foldl
    (fun jdata option =>
      if cmp.all (fun cmp => cmp option.2) then
        jsonObjectSet jdata option.1 (option.2.item o)
      else jdata)
    jdata

structure CustomVariablesMember where
  variableName : Option CString
  variableValue : Option CString

/-- What the builders read of a Nagios `host`; a group is given by its name. -/
structure HostObject where
  address : Option CString
  hostgroups : List (Option CString)

/-- What they read of a `service`. -/
structure ServiceObject where
  host : HostObject
  servicegroups : List (Option CString)
  customVariables : List CustomVariablesMember
  actionUrl : Option CString
  notesUrl : Option CString

/-- A group without a name is left out. -/
def groupNames (groups : List (Option CString)) : Option JsonValue :=
  some (.strings (groups.filterMap id))

def n2aNebstructAddHostgroups (o : Options) (jdata : JsonObject) (host : HostObject) : JsonObject :=
  if o.hostgroups ≠ 0 then jsonObjectSet jdata (.lit "hostgroups") (groupNames host.hostgroups)
  else jdata

def n2aNebstructAddServicegroups (o : Options) (jdata : JsonObject) (service : ServiceObject) :
    JsonObject :=
  if o.servicegroups ≠ 0 then
    jsonObjectSet jdata (.lit "servicegroups") (groupNames service.servicegroups)
  else jdata

/-- A variable without a name or a value is left out. -/
def n2aNebstructAddCustomVariables (o : Options) (jdata : JsonObject)
    (cvars : List CustomVariablesMember) : JsonObject :=
  if o.customVariables ≠ 0 then
    cvars.foldl
      (fun jdata cvar =>
        match cvar.variableName with
        | none => jdata
        | some variableName =>
            jsonObjectSet jdata variableName (jsonStringNocheck cvar.variableValue))
      jdata
  else jdata

def n2aNebstructAddUrls (o : Options) (jdata : JsonObject) (actionUrl notesUrl : Option CString) :
    JsonObject :=
  if o.urls ≠ 0 then
    n2aAddOptionsToEvent o
      [(.lit "action_url", .stringNocheck actionUrl), (.lit "notes_url", .stringNocheck notesUrl)]
      jdata none
  else jdata

/-- What a buffer of the size of the text holds of it. -/
def payloadOf (json : Option CString) : CString := .snprintfS (xstrlen json + 1) json

end Neb2Amqp
