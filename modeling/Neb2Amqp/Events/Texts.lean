import Neb2Amqp.Events.Rounds

/-!
# What the shared object holds

All messages of a check are dumps of one object. Seen from outside it is the base
with a layer on top: for each of the three text keys, the chunk put there last.
The loops of `split_message` follow a plan that says which layer each message has.
-/

namespace Neb2Amqp

open CLib

/-! ## The layer -/

/-- The chunk under each text key, if one was put there. -/
abbrev Texts := TextField → Option CString

def Texts.none : Texts := fun _ => Option.none

def Texts.set (texts : Texts) (field : TextField) (text : CString) : Texts :=
  Function.update texts field (some text)

@[simp] theorem Texts.set_self (texts : Texts) (field : TextField) (text : CString) :
    texts.set field text field = some text :=
  Function.update_self ..

theorem Texts.set_of_ne {field other : TextField} (h : other ≠ field) (texts : Texts)
    (text : CString) : texts.set field text other = texts other :=
  Function.update_of_ne h ..

@[simp] theorem Texts.set_set (texts : Texts) (field : TextField) (text text' : CString) :
    (texts.set field text).set field text' = texts.set field text' :=
  Function.update_idem ..

def textFields : List TextField := [.longOutput, .output, .perfData]

theorem mem_textFields (field : TextField) : field ∈ textFields := by
  cases field <;> decide

theorem name_injective : Function.Injective TextField.name := by
  intro field other h
  cases field <;> cases other <;> first | rfl | exact absurd h (by decide)

theorem name_proper (field : TextField) : utf8CheckString field.name = true := by
  cases field <;> decide

/-- The pairs of a layer. -/
def held (texts : Texts) : List JsonPair :=
  textFields.filterMap fun field => (texts field).map fun text => (field.name, .string text)

theorem mem_held {texts : Texts} {p : JsonPair} :
    p ∈ held texts ↔ ∃ field text, texts field = some text ∧ p = (field.name, .string text) := by
  simp only [held, List.mem_filterMap, mem_textFields, true_and, Option.map_eq_some_iff]
  refine exists_congr fun field => exists_congr fun text => ?_
  exact and_congr_right fun _ => eq_comm

theorem name_mem_keysOf_held {texts : Texts} {field : TextField} :
    field.name ∈ keysOf (held texts) ↔ (texts field).isSome := by
  rw [mem_keysOf, Option.isSome_iff_exists]
  constructor
  · rintro ⟨p, hp, hkey⟩
    obtain ⟨other, text, htext, rfl⟩ := mem_held.mp hp
    obtain rfl : other = field := name_injective hkey
    exact ⟨text, htext⟩
  · rintro ⟨text, htext⟩
    exact ⟨(field.name, .string text), mem_held.mpr ⟨field, text, htext, rfl⟩, rfl⟩

theorem keysOf_held_nodup (texts : Texts) : (keysOf (held texts)).Nodup := by
  have hkeys : ∀ fields : List TextField,
      keysOf (fields.filterMap fun field =>
        (texts field).map fun text => (field.name, JsonValue.string text)) =
      (fields.filter fun field => (texts field).isSome).map TextField.name := by
    intro fields
    induction fields with
    | nil => rfl
    | cons field fields ih => cases h : texts field <;> simp_all [keysOf]
  rw [held, hkeys]
  have hfields : textFields.Nodup := by decide
  exact (hfields.filter _).map name_injective

theorem held_none : held Texts.none = [] := rfl

theorem entered_perm {base jdata : JsonObject} {texts : Texts} {pairs : List JsonPair}
    {field : TextField} {text : CString}
    (hjdata : jdata.pairs.Perm (overlay base.pairs (held texts)))
    (hpairs : pairs.Perm ((field.name, .string text) :: without field.name jdata.pairs)) :
    pairs.Perm (overlay base.pairs (held (texts.set field text))) := by
  have hmem : ∀ p, p ∈ held (texts.set field text) ↔
      p = (field.name, .string text) ∨ (p ∈ held texts ∧ p.1 ≠ field.name) := by
    intro p
    simp only [mem_held]
    constructor
    · rintro ⟨other, text', htext', rfl⟩
      by_cases hother : other = field
      · subst hother
        rw [Texts.set_self] at htext'
        cases htext'
        exact .inl rfl
      · rw [Texts.set_of_ne hother] at htext'
        exact .inr ⟨⟨other, text', htext', rfl⟩, fun h => hother (name_injective h)⟩
    · rintro (rfl | ⟨⟨other, text', htext', rfl⟩, hne⟩)
      · exact ⟨field, text, Texts.set_self .., rfl⟩
      · have hother : other ≠ field := fun h => hne (h ▸ rfl)
        exact ⟨other, text', (Texts.set_of_ne hother texts text).trans htext', rfl⟩
  apply (hpairs.trans ((hjdata.filter _).cons _)).trans
  exact overlay_enter_perm base.nodup (keysOf_held_nodup texts) (keysOf_held_nodup _) hmem

/-! ## The plan of the loops -/

/-- The loops run in this order. -/
def TextField.place : TextField → Nat
  | .longOutput => 0
  | .output => 1
  | .perfData => 2

/-- What the loop for a text leaves in the object. -/
def lastChunk (c : ServiceCheckData) (left : Int32) (field : TextField) : Option CString :=
  if rounds c left field = 0 then none else some (chunk c left field (rounds c left field - 1))

/-- The layer with which the loop for a text begins. -/
def layerBefore (c : ServiceCheckData) (left : Int32) (field : TextField) : Texts :=
  fun other => if other.place < field.place then lastChunk c left other else none

/-- The layer with which it ends. -/
def layerAfter (c : ServiceCheckData) (left : Int32) (field : TextField) : Texts :=
  fun other => if other.place ≤ field.place then lastChunk c left other else none

/-- The layer of the message of round `k`. -/
def layerAt (c : ServiceCheckData) (left : Int32) (field : TextField) (k : Nat) : Texts :=
  (layerBefore c left field).set field (chunk c left field k)

/-- The messages of the loop for a text. -/
def loopPlan (c : ServiceCheckData) (left : Int32) (field : TextField) : List (TextField × Texts) :=
  (List.range (rounds c left field)).map fun k => (field, layerAt c left field k)

/-- The messages of a split check: whose turn it is and the layer of the object. -/
def plan (c : ServiceCheckData) (left : Int32) : List (TextField × Texts) :=
  textFields.flatMap (loopPlan c left)

/-- The message is the dump of the base under this layer. -/
structure Shows (printf : UInt64 → Option CString) (base : JsonObject) (m : Message)
    (texts : Texts) : Prop where
  payload : m.payload = payloadOf (jsonDumps printf m.jdata)
  pairs : m.jdata.pairs.Perm (overlay base.pairs (held texts))

/-- And the loop for this text sent it. -/
structure Follows (printf : UInt64 → Option CString) (base : JsonObject) (m : Message)
    (layer : TextField × Texts) : Prop extends Shows printf base m layer.2 where
  part : m.part = some layer.1

theorem exists_message {printf : UInt64 → Option CString} {base : JsonObject}
    {messages : List Message} {layers : List (TextField × Texts)}
    (h : List.Forall₂ (Follows printf base) messages layers) :
    ∀ layer ∈ layers, ∃ m ∈ messages, Follows printf base m layer := by
  induction h with
  | nil => simp
  | @cons m _ messages _ hm _ ih =>
      refine List.forall_mem_cons.mpr ⟨⟨m, List.mem_cons_self, hm⟩, fun layer hlayer => ?_⟩
      obtain ⟨m', hm', hfollows⟩ := ih layer hlayer
      exact ⟨m', List.mem_cons_of_mem m hm', hfollows⟩

theorem exists_layer {printf : UInt64 → Option CString} {base : JsonObject}
    {messages : List Message} {layers : List (TextField × Texts)}
    (h : List.Forall₂ (Follows printf base) messages layers) :
    ∀ m ∈ messages, ∃ layer ∈ layers, Follows printf base m layer := by
  induction h with
  | nil => simp
  | @cons _ layer _ layers hm _ ih =>
      refine List.forall_mem_cons.mpr ⟨⟨layer, List.mem_cons_self, hm⟩, fun m hm => ?_⟩
      obtain ⟨layer', hlayer', hfollows⟩ := ih m hm
      exact ⟨layer', List.mem_cons_of_mem layer hlayer', hfollows⟩

theorem mem_plan {c : ServiceCheckData} {left : Int32} {layer : TextField × Texts} :
    layer ∈ plan c left ↔
      ∃ field k, k < rounds c left field ∧ layer = (field, layerAt c left field k) := by
  simp only [plan, loopPlan, List.mem_flatMap, mem_textFields, true_and, List.mem_map,
    List.mem_range, eq_comm]

section
variable (printf : UInt64 → Option CString) (key : Option CString) {c : ServiceCheckData}
  {left : Int32} {base : JsonObject}

theorem layerBefore_longOutput : layerBefore c left .longOutput = .none := rfl

theorem layerAfter_longOutput : layerAfter c left .longOutput = layerBefore c left .output := by
  funext other
  cases other <;> rfl

theorem layerAfter_output : layerAfter c left .output = layerBefore c left .perfData := by
  funext other
  cases other <;> rfl

theorem layerBefore_left (field : TextField) :
    (if rounds c left field = 0 then layerBefore c left field
      else (layerBefore c left field).set field (chunk c left field (rounds c left field - 1))) =
      layerAfter c left field := by
  funext other
  by_cases hother : other = field
  · subst hother
    by_cases hzero : rounds c left other = 0 <;> simp [hzero, layerBefore, layerAfter, lastChunk]
  · have hplace : other.place ≠ field.place := by
      cases other <;> cases field <;> first | exact absurd rfl hother | decide
    have hle : other.place ≤ field.place ↔ other.place < field.place := by omega
    by_cases hzero : rounds c left field = 0
    · simp [hzero, layerBefore, layerAfter, hle]
    · simp [hzero, layerBefore, layerAfter, hle, Texts.set_of_ne hother]

theorem updateJson_ok (hleft : 1 ≤ left.toInt) (jdata : JsonObject) (message : Option CString)
    (field : CString) (i : Int32) :
    n2aNebstructServiceCheckDataUpdateJson jdata message field left i =
      .ok (jsonObjectSet (jsonObjectDel jdata field) field
        (some (.string (chunkOf message left i)))) := by
  have hsize : ¬ left < 1 := by
    rw [lt_one_iff_toInt_lt_one]
    exact Int.not_lt.mpr hleft
  exact if_neg hsize

theorem splitLoop_follows (hleft : 1 ≤ left.toInt) (field : TextField) (n k : Nat)
    {jdata : JsonObject} {texts : Texts}
    (hjdata : jdata.pairs.Perm (overlay base.pairs (held texts))) :
    ∃ messages jdata',
      splitLoop printf key (c.text field) field left n (.ofNat k) jdata = .ok (messages, jdata') ∧
      List.Forall₂ (Follows printf base) messages
        ((List.range' k n).map fun j => (field, texts.set field (chunk c left field j))) ∧
      jdata'.pairs.Perm (overlay base.pairs (held
        (if n = 0 then texts else texts.set field (chunk c left field (k + n - 1))))) := by
  induction n generalizing k jdata texts with
  | zero => exact ⟨[], jdata, rfl, .nil, hjdata⟩
  | succ n ih =>
      have hperm := entered_perm hjdata
        (jsonObjectSet_del_perm (name_proper field) jdata (.string (chunk c left field k)))
      have hstep := updateJson_ok hleft jdata (c.text field) field.name (.ofNat k)
      obtain ⟨messages, jdata', hloop, hmessages, hafter⟩ := ih (k + 1) hperm
      have hnext : Int32.ofNat k + 1 = Int32.ofNat (k + 1) := (Int32.ofNat_add k 1).symm
      let updated := jsonObjectSet (jsonObjectDel jdata field.name) field.name
        (some (.string (chunk c left field k)))
      let sent : Message := ⟨key, payloadOf (jsonDumps printf updated), updated, some field⟩
      refine ⟨sent :: messages, jdata', ?_, ?_, ?_⟩
      · rw [splitLoop, hstep, hnext]
        simp only [bind, Except.bind]
        rw [← chunk, hloop]
        rfl
      · rw [List.range'_succ, List.map_cons]
        refine .cons ⟨⟨rfl, hperm⟩, rfl⟩ ?_
        simpa only [Texts.set_set] using hmessages
      · rw [if_neg (Nat.succ_ne_zero n)]
        by_cases hn : n = 0
        · subst hn
          simpa using hafter
        · rw [if_neg hn, Texts.set_set] at hafter
          have hlast : k + 1 + n - 1 = k + (n + 1) - 1 := by omega
          rwa [hlast] at hafter

theorem splitMessage_follows (hleft : 1 ≤ left.toInt) (field : TextField) {jdata : JsonObject}
    (hjdata : jdata.pairs.Perm (overlay base.pairs (held (layerBefore c left field)))) :
    ∃ messages jdata',
      splitMessage printf key (c.text field) field left jdata = .ok (messages, jdata') ∧
      List.Forall₂ (Follows printf base) messages (loopPlan c left field) ∧
      jdata'.pairs.Perm (overlay base.pairs (held (layerAfter c left field))) := by
  obtain ⟨messages, jdata', hloop, hmessages, hafter⟩ :=
    splitLoop_follows printf key hleft field (rounds c left field) 0 hjdata
  refine ⟨messages, jdata', ?_, ?_, ?_⟩
  · rw [splitMessage, intDiv_ok hleft]
    exact hloop
  · rw [← List.range_eq_range'] at hmessages
    exact hmessages
  · simpa only [Nat.zero_add, layerBefore_left] using hafter

/-- A split check sends its messages as planned. -/
theorem splitMessages_follows (hleft : 1 ≤ left.toInt) (base : JsonObject) :
    ∃ messages, splitMessages printf key c left base = .ok messages ∧
      List.Forall₂ (Follows printf base) messages (plan c left) := by
  have hstart : base.pairs.Perm (overlay base.pairs (held (layerBefore c left .longOutput))) := by
    rw [layerBefore_longOutput, held_none, overlay_nil]
  obtain ⟨longOutput, jdata, hlong, hlongs, hjdata⟩ :=
    splitMessage_follows printf key hleft .longOutput hstart
  rw [layerAfter_longOutput] at hjdata
  obtain ⟨output, jdata', hout, houts, hjdata'⟩ :=
    splitMessage_follows printf key hleft .output hjdata
  rw [layerAfter_output] at hjdata'
  obtain ⟨perfData, jdata'', hperf, hperfs, -⟩ :=
    splitMessage_follows printf key hleft .perfData hjdata'
  refine ⟨longOutput ++ output ++ perfData, ?_, ?_⟩
  · simp only [splitMessages, intDiv_ok hleft, bind, Except.bind]
    have htexts : c.text .longOutput = c.longOutput ∧ c.text .output = c.output ∧
        c.text .perfData = c.perfData := ⟨rfl, rfl, rfl⟩
    rw [← htexts.1, hlong]
    simp only []
    rw [← htexts.2.1, hout]
    simp only []
    rw [← htexts.2.2, hperf]
    rfl
  · have hplan : plan c left =
        loopPlan c left .longOutput ++ loopPlan c left .output ++ loopPlan c left .perfData := by
      simp [plan, textFields]
    rw [hplan]
    exact List.rel_append (List.rel_append hlongs houts) hperfs

end

/-! ## The two branches -/

section
variable {printf : UInt64 → Option CString} {o : Options} {c : ServiceCheckData}

/-- What is left of `max_size` next to the base. -/
def textRoom (printf : UInt64 → Option CString) (o : Options) (c : ServiceCheckData) : Int32 :=
  leftOf o (baseSize printf o c)

/-- The checks that are split, with room for at least one byte of text in a message. -/
structure Splits (printf : UInt64 → Option CString) (o : Options) (c : ServiceCheckData) : Prop where
  processed : c.type = servicecheckProcessed
  wide : 2 ≤ (textRoom printf o c).toInt
  several : toInt (textLength c) > textRoom printf o c

theorem toJson_several (hseveral : toInt (textLength c) > textRoom printf o c) :
    n2aNebstructServiceCheckDataToJson printf o c =
      intDiv (toInt (textLength c)) (textRoom printf o c) >>= fun messages =>
        .ok (messages + 1, serviceCheckBase o c, baseSize printf o c) :=
  if_pos hseveral

theorem toJson_single (hfits : ¬ toInt (textLength c) > textRoom printf o c) :
    n2aNebstructServiceCheckDataToJson printf o c =
      .ok (1, n2aAddOptionsToEvent o (serviceCheckAdditionals c) (serviceCheckBase o c) none,
        xstrlen (jsonDumps printf
          (n2aAddOptionsToEvent o (serviceCheckAdditionals c) (serviceCheckBase o c) none))) :=
  if_neg hfits

/-- With `left` positive, a check whose texts do not fit is reported as several messages. -/
theorem toJson_of_several (hleft : 1 ≤ (textRoom printf o c).toInt)
    (hseveral : toInt (textLength c) > textRoom printf o c) :
    ∃ nbmsg, nbmsg ≠ 1 ∧ n2aNebstructServiceCheckDataToJson printf o c =
      .ok (nbmsg, serviceCheckBase o c, baseSize printf o c) := by
  have hlt := Int32.lt_iff_toInt_lt.mp hseveral
  have hdiv := intDiv_ok hleft (toInt (textLength c))
  refine ⟨toInt (textLength c) / textRoom printf o c + 1, ?_, ?_⟩
  · intro hone
    have hquot := (one_le_tdiv_iff (show 0 < (textRoom printf o c).toInt by omega)).mpr
      (show _ ≤ (toInt (textLength c)).toInt by omega)
    have hsucc := toInt_succ (toInt (textLength c) / textRoom printf o c)
    have honeInt : (1 : Int32).toInt = 1 := by decide
    rw [hone, honeInt, toInt_div_of_pos hleft] at hsucc
    split at hsucc <;> omega
  · rw [toJson_several hseveral, hdiv]
    rfl

theorem serviceCheckMessages_planned (hprocessed : c.type = servicecheckProcessed)
    (hleft : 1 ≤ (textRoom printf o c).toInt)
    (hseveral : toInt (textLength c) > textRoom printf o c) (realloc : Nat → Bool) :
    ∃ messages, serviceCheckMessages printf o realloc c = .ok messages ∧
      List.Forall₂ (Follows printf (serviceCheckBase o c)) messages (plan c (textRoom printf o c)) := by
  obtain ⟨nbmsg, hnbmsg, hjson⟩ := toJson_of_several hleft hseveral
  obtain ⟨messages, hmessages, hplan⟩ :=
    splitMessages_follows printf (serviceCheckKey o realloc c) hleft (serviceCheckBase o c)
  refine ⟨messages, ?_, hplan⟩
  rw [serviceCheckMessages, if_pos hprocessed, hjson]
  simp only [bind, Except.bind, if_neg hnbmsg]
  exact hmessages

theorem serviceCheckMessages_follows (h : Splits printf o c) (realloc : Nat → Bool) :
    ∃ messages, serviceCheckMessages printf o realloc c = .ok messages ∧
      List.Forall₂ (Follows printf (serviceCheckBase o c)) messages
        (plan c (textRoom printf o c)) := by
  have hwide := h.wide
  exact serviceCheckMessages_planned h.processed (by omega) h.several realloc

theorem optional_perm {base jdata : JsonObject} {texts : Texts}
    (hjdata : jdata.pairs.Perm (overlay base.pairs (held texts))) (field : TextField)
    (hfree : texts field = none) (text : Option CString) :
    (jsonObjectSet jdata field.name (jsonStringNocheck text)).pairs.Perm
      (overlay base.pairs (held (Function.update texts field text))) := by
  cases text with
  | none =>
      have hsame : Function.update texts field none = texts :=
        hfree ▸ Function.update_eq_self field texts
      rw [hsame]
      exact hjdata
  | some text => exact entered_perm hjdata (jsonObjectSet_perm (name_proper field) jdata _)

variable (o) in
theorem additionals_perm (base : JsonObject) (texts : Texts) :
    (n2aAddOptionsToEvent o
      [(.lit "output", .stringNocheck (texts .output)),
        (.lit "long_output", .stringNocheck (texts .longOutput)),
        (.lit "perf_data", .stringNocheck (texts .perfData))] base none).pairs.Perm
      (overlay base.pairs (held texts)) := by
  have hbase : base.pairs.Perm (overlay base.pairs (held .none)) := by
    rw [held_none, overlay_nil]
  have houtput := optional_perm hbase .output rfl (texts .output)
  have hlong := optional_perm houtput .longOutput rfl (texts .longOutput)
  have hperf := optional_perm hlong .perfData rfl (texts .perfData)
  have hall : Function.update (Function.update (Function.update Texts.none .output (texts .output))
      .longOutput (texts .longOutput)) .perfData (texts .perfData) = texts := by
    funext field
    cases field <;> rfl
  rwa [hall] at hperf

variable (printf o c) in
/-- A check that is not split sends one message with all texts it has. -/
theorem serviceCheckMessages_single (hprocessed : c.type = servicecheckProcessed)
    (hfits : ¬ toInt (textLength c) > textRoom printf o c) (realloc : Nat → Bool) :
    ∃ m, serviceCheckMessages printf o realloc c = .ok [m] ∧
      Shows printf (serviceCheckBase o c) m c.text := by
  let jdata := n2aAddOptionsToEvent o (serviceCheckAdditionals c) (serviceCheckBase o c) none
  have hjson : n2aNebstructServiceCheckDataToJson printf o c =
      .ok (1, jdata, xstrlen (jsonDumps printf jdata)) := toJson_single hfits
  refine ⟨⟨serviceCheckKey o realloc c, payloadOf (jsonDumps printf jdata), jdata, none⟩,
    ?_, rfl, additionals_perm o (serviceCheckBase o c) c.text⟩
  rw [serviceCheckMessages, if_pos hprocessed, hjson]
  rfl

end

end Neb2Amqp
