import Mathlib.Data.List.Induction
import Neb2Amqp.Json.Event

/-!
# What a builder enters

Every builder fills its object by one call of `json_object_set` after the other. The
calls of a builder are listed here as data: a key and a value, NULL or not. What the
object holds in the end is the last value entered under each key.
-/

namespace Neb2Amqp

open CLib

/-- The arguments of a call of `json_object_set`. -/
abbrev Entry := CString × Option JsonValue

/-- The calls made one after the other. -/
def enterAll (jdata : JsonObject) (entries : List Entry) : JsonObject :=
  entries.foldl (fun jdata entry => jsonObjectSet jdata entry.1 entry.2) jdata

/-- The pairs that get into the object: a NULL value and an improper key do not. -/
def effective (entries : List Entry) : List JsonPair :=
  entries.filterMap fun entry =>
    if utf8CheckString entry.1 then entry.2.map fun value => (entry.1, value) else none

theorem enterAll_append (jdata : JsonObject) (entries more : List Entry) :
    enterAll jdata (entries ++ more) = enterAll (enterAll jdata entries) more :=
  List.foldl_append

theorem effective_append (entries more : List Entry) :
    effective (entries ++ more) = effective entries ++ effective more :=
  List.filterMap_append

theorem mem_effective {entries : List Entry} {p : JsonPair} :
    p ∈ effective entries ↔ (p.1, some p.2) ∈ entries ∧ utf8CheckString p.1 = true := by
  rw [effective, List.mem_filterMap]
  constructor
  · rintro ⟨entry, hentry, hp⟩
    split at hp
    · rename_i hproper
      obtain ⟨value, hvalue, rfl⟩ := Option.map_eq_some_iff.mp hp
      rw [← hvalue]
      exact ⟨hentry, hproper⟩
    · cases hp
  · rintro ⟨hentry, hproper⟩
    exact ⟨_, hentry, if_pos hproper⟩

/-- An object holds the last value entered under each key, and what it held before
under other keys. -/
theorem enterAll_perm (jdata : JsonObject) (entries : List Entry) :
    (enterAll jdata entries).pairs.Perm (overlay jdata.pairs (lasts (effective entries))) := by
  induction entries using List.reverseRecOn with
  | nil =>
      rw [show lasts (effective []) = [] from rfl, overlay_nil]
      exact .refl _
  | append_singleton entries entry ih =>
      rw [enterAll_append, effective_append]
      obtain ⟨key, value⟩ := entry
      cases value with
      | none =>
          have hnone : effective [(key, none)] = [] := by simp [effective]
          rw [hnone, List.append_nil]
          exact ih
      | some value =>
          change (jsonObjectSet (enterAll jdata entries) key (some value)).pairs.Perm _
          by_cases hproper : utf8CheckString key = true
          · have hone : effective [(key, some value)] = [(key, value)] := by
              simp [effective, hproper]
            have hset := jsonObjectSet_perm hproper (enterAll jdata entries) value
            rw [hone]
            exact (hset.trans ((ih.filter _).cons _)).trans
              (overlay_lasts_concat jdata.nodup (effective entries) key value)
          · have hnone : effective [(key, some value)] = [] := by simp [effective, hproper]
            rw [hnone, List.append_nil, jsonObjectSet, if_neg hproper]
            exact ih

theorem overlay_nil_left (top : List JsonPair) : overlay [] top = top := by
  simp [overlay]

theorem enterAll_jsonObject_perm (entries : List Entry) :
    (enterAll jsonObject entries).pairs.Perm (lasts (effective entries)) := by
  have hperm := enterAll_perm jsonObject entries
  rwa [show jsonObject.pairs = [] from rfl, overlay_nil_left] at hperm

theorem mem_keys_enterAll {entries : List Entry} {key : CString} :
    key ∈ (enterAll jsonObject entries).keys ↔ key ∈ keysOf (effective entries) := by
  rw [← mem_keysOf_lasts]
  exact ((enterAll_jsonObject_perm entries).map Prod.fst).mem_iff

theorem enterAll_ne_nil {entries : List Entry} {key : CString} {value : JsonValue}
    (hentry : (key, some value) ∈ entries) (hproper : utf8CheckString key = true) :
    (enterAll jsonObject entries).pairs ≠ [] := by
  have hpair : (key, value) ∈ effective entries := mem_effective.mpr ⟨hentry, hproper⟩
  have hkey := mem_keys_enterAll.mpr (List.mem_map_of_mem hpair)
  intro hnil
  rw [JsonObject.keys, hnil] at hkey
  exact absurd hkey List.not_mem_nil

/-- Under keys that are all different, every value can be found again, and a NULL value
leaves its key out. -/
theorem jsonObjectGet_enterAll {entries : List Entry} (hnodup : (keysOf entries).Nodup)
    {key : CString} {value : Option JsonValue} (hentry : (key, value) ∈ entries)
    (hproper : utf8CheckString key = true) :
    jsonObjectGet (enterAll jsonObject entries) key = value := by
  cases value with
  | none =>
      apply jsonObjectGet_eq_none
      intro hkey
      obtain ⟨p, hp, rfl⟩ := mem_keysOf.mp (mem_keys_enterAll.mp hkey)
      cases value_unique hnodup hentry (mem_effective.mp hp).1
  | some value =>
      have hpair : (key, value) ∈ effective entries := mem_effective.mpr ⟨hentry, hproper⟩
      obtain ⟨p, hp, rfl⟩ :=
        mem_keysOf.mp (mem_keysOf_lasts.mpr (List.mem_map_of_mem (f := Prod.fst) hpair))
      have hsame := value_unique hnodup (mem_effective.mp (lasts_subset _ hp)).1 hentry
      apply jsonObjectGet_eq_some
      rw [(enterAll_jsonObject_perm entries).mem_iff, ← Option.some.inj hsame]
      exact hp

/-! ## Writing the object -/

/-- Every string entered is UTF-8. -/
def ProperEntries (entries : List Entry) : Prop :=
  ∀ p ∈ effective entries, ∀ s ∈ p.2.texts, utf8CheckString s = true

instance (entries : List Entry) : Decidable (ProperEntries entries) :=
  inferInstanceAs (Decidable (∀ p ∈ effective entries, ∀ s ∈ p.2.texts, utf8CheckString s = true))

theorem jsonDumps_enterAll_isSome_iff {printf : UInt64 → Option CString}
    (hreals : WritesReals printf) (entries : List Entry) :
    (jsonDumps printf (enterAll jsonObject entries)).isSome ↔
      ∀ p ∈ lasts (effective entries), ∀ s ∈ p.2.texts, utf8CheckString s = true := by
  rw [jsonDumps_isSome_iff]
  simp only [(enterAll_jsonObject_perm entries).mem_iff, dumpValue_isSome_iff hreals]

theorem ProperEntries.dumps {printf : UInt64 → Option CString} (hreals : WritesReals printf)
    {entries : List Entry} (h : ProperEntries entries) :
    (jsonDumps printf (enterAll jsonObject entries)).isSome :=
  (jsonDumps_enterAll_isSome_iff hreals entries).mpr fun p hp => h p (lasts_subset _ hp)

/-! ## The entries of the shared parts -/

def optionEntries (o : Options) (options : List (CString × EventOption))
    (cmp : Option (EventOption → Bool)) : List Entry :=
  (options.filter fun option => cmp.all fun cmp => cmp option.2).map fun option =>
    (option.1, option.2.item o)

theorem n2aAddOptionsToEvent_eq (o : Options) (options : List (CString × EventOption))
    (jdata : JsonObject) (cmp : Option (EventOption → Bool)) :
    n2aAddOptionsToEvent o options jdata cmp = enterAll jdata (optionEntries o options cmp) := by
  induction options generalizing jdata with
  | nil => rfl
  | cons option options ih =>
      have hcons : n2aAddOptionsToEvent o (option :: options) jdata cmp =
          n2aAddOptionsToEvent o options
            (if cmp.all (fun cmp => cmp option.2) then
              jsonObjectSet jdata option.1 (option.2.item o)
            else jdata) cmp := rfl
      rw [hcons, ih, optionEntries, optionEntries, List.filter_cons]
      split
      · rfl
      · rfl

def hostgroupEntries (o : Options) (host : HostObject) : List Entry :=
  if o.hostgroups ≠ 0 then [(.lit "hostgroups", groupNames host.hostgroups)] else []

def servicegroupEntries (o : Options) (service : ServiceObject) : List Entry :=
  if o.servicegroups ≠ 0 then [(.lit "servicegroups", groupNames service.servicegroups)] else []

def customVariableEntries (o : Options) (cvars : List CustomVariablesMember) : List Entry :=
  if o.customVariables ≠ 0 then
    cvars.filterMap fun cvar =>
      cvar.variableName.map fun variableName =>
        (variableName, jsonStringNocheck cvar.variableValue)
  else []

def urlEntries (o : Options) (actionUrl notesUrl : Option CString) : List Entry :=
  if o.urls ≠ 0 then
    [(.lit "action_url", jsonStringNocheck actionUrl), (.lit "notes_url", jsonStringNocheck notesUrl)]
  else []

theorem n2aNebstructAddHostgroups_eq (o : Options) (jdata : JsonObject) (host : HostObject) :
    n2aNebstructAddHostgroups o jdata host = enterAll jdata (hostgroupEntries o host) := by
  unfold n2aNebstructAddHostgroups hostgroupEntries
  split <;> rfl

theorem n2aNebstructAddServicegroups_eq (o : Options) (jdata : JsonObject)
    (service : ServiceObject) :
    n2aNebstructAddServicegroups o jdata service =
      enterAll jdata (servicegroupEntries o service) := by
  unfold n2aNebstructAddServicegroups servicegroupEntries
  split <;> rfl

theorem n2aNebstructAddCustomVariables_eq (o : Options) (jdata : JsonObject)
    (cvars : List CustomVariablesMember) :
    n2aNebstructAddCustomVariables o jdata cvars =
      enterAll jdata (customVariableEntries o cvars) := by
  unfold n2aNebstructAddCustomVariables customVariableEntries
  split
  · induction cvars generalizing jdata with
    | nil => rfl
    | cons cvar cvars ih =>
        obtain ⟨variableName, variableValue⟩ := cvar
        rw [List.foldl_cons, ih, List.filterMap_cons]
        cases variableName with
        | none => rfl
        | some variableName => rfl
  · rfl

theorem n2aNebstructAddUrls_eq (o : Options) (jdata : JsonObject)
    (actionUrl notesUrl : Option CString) :
    n2aNebstructAddUrls o jdata actionUrl notesUrl =
      enterAll jdata (urlEntries o actionUrl notesUrl) := by
  unfold n2aNebstructAddUrls urlEntries
  split <;> rfl

end Neb2Amqp
