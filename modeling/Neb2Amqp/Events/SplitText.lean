import Neb2Amqp.Events.Texts

/-!
# Whether a split text arrives whole

The chunks that the messages of a split check carry of a text, in send order,
against the text.
-/

namespace Neb2Amqp

open CLib

/-- The chunk the object held when the message was dumped, for the messages of the
loop for this text. -/
def storedChunks (field : TextField) (messages : List Message) : List CString :=
  messages.filterMap fun m =>
    if m.part = some field then jsonObjectGet m.jdata field.name >>= jsonStringValue else none

/-- A NULL text counts as the empty one. -/
def Lossless (c : ServiceCheckData) (field : TextField) (messages : List Message) : Prop :=
  ((storedChunks field messages).map CString.bytes).flatten = (c.text field).elim [] CString.bytes

section
variable {printf : UInt64 → Option CString} {base : JsonObject} {c : ServiceCheckData}
  {left : Int32}

theorem Follows.get_some {m : Message} {layer : TextField × Texts}
    (h : Follows printf base m layer) {field : TextField} {text : CString}
    (htext : layer.2 field = some text) :
    jsonObjectGet m.jdata field.name = some (.string text) := by
  refine jsonObjectGet_eq_some (h.pairs.mem_iff.mpr (mem_overlay.mpr (.inl ?_)))
  exact mem_held.mpr ⟨field, text, htext, rfl⟩

theorem storedChunks_follows {messages : List Message} {layers : List (TextField × Texts)}
    (h : List.Forall₂ (Follows printf base) messages layers)
    (hown : ∀ layer ∈ layers, (layer.2 layer.1).isSome) (field : TextField) :
    storedChunks field messages =
      layers.filterMap fun layer => if layer.1 = field then layer.2 field else none := by
  induction h with
  | nil => rfl
  | @cons m layer messages layers hm _ ih =>
      have hrest := ih fun other hother => hown other (List.mem_cons_of_mem _ hother)
      unfold storedChunks at hrest ⊢
      rw [List.filterMap_cons, List.filterMap_cons, hrest, hm.part]
      by_cases hfield : layer.1 = field
      · subst hfield
        obtain ⟨text, htext⟩ := Option.isSome_iff_exists.mp (hown layer List.mem_cons_self)
        simp [hm.get_some htext, htext, jsonStringValue]
      · simp [hfield]

theorem layerAt_self (field : TextField) (k : Nat) :
    layerAt c left field k field = some (chunk c left field k) :=
  Texts.set_self ..

theorem plan_own : ∀ layer ∈ plan c left, (layer.2 layer.1).isSome := by
  intro layer hlayer
  obtain ⟨field, k, -, rfl⟩ := mem_plan.mp hlayer
  simp [layerAt_self]

/-- Only the loop for a text puts chunks of it into the object, one in each round. -/
theorem plan_chunks (field : TextField) :
    ((plan c left).filterMap fun layer => if layer.1 = field then layer.2 field else none) =
      (List.range (rounds c left field)).map (chunk c left field) := by
  have hloop : ∀ other, ((loopPlan c left other).filterMap fun layer =>
      if layer.1 = field then layer.2 field else none) =
      if other = field then (List.range (rounds c left field)).map (chunk c left field) else [] := by
    intro other
    rw [loopPlan, List.filterMap_map]
    split
    · rename_i hother
      subst hother
      simp only [Function.comp_def, if_true, layerAt_self]
      exact congrFun (List.filterMap_eq_map' (f := chunk c left other)) _
    · rename_i hother
      simp [hother]
  rw [plan, List.filterMap_flatMap]
  simp only [hloop]
  cases field <;> simp [textFields]

theorem storedChunks_plan {messages : List Message}
    (h : List.Forall₂ (Follows printf base) messages (plan c left)) (field : TextField) :
    storedChunks field messages =
      (List.range (rounds c left field)).map (chunk c left field) := by
  rw [storedChunks_follows h plan_own, plan_chunks]

/-! ## The exact condition -/

theorem chunks_of_lt (hleft : 2 ≤ left.toInt) {field : TextField} {text : CString}
    (htext : c.text field = some text) (hlen : text.strlen < 2 ^ 31) :
    (((List.range (rounds c left field)).map (chunk c left field)).map CString.bytes).flatten =
      text.bytes ↔
    text.strlen / left.toInt.toNat + text.strlen % left.toInt.toNat < left.toInt.toNat := by
  have hchunks : ((List.range (rounds c left field)).map (chunk c left field)).map CString.bytes =
      (List.range (rounds c left field)).map (chunkAt (left.toInt.toNat - 1) text.bytes) := by
    rw [List.map_map]
    apply List.map_congr_left
    intro k hk
    exact chunk_bytes hleft htext (List.mem_range.mp hk)
  have hwidth : left.toInt.toNat - 1 + 1 = left.toInt.toNat := by omega
  have hcover := length_le_chunks_iff text.strlen (left.toInt.toNat - 1)
  rw [hwidth] at hcover
  rw [hchunks, flatten_chunkAt_eq_iff, rounds_of_lt hleft htext hlen]
  exact hcover

/-- A NULL text leaves the beginning of `(null)` in the object. -/
theorem chunks_of_null (hleft : 2 ≤ left.toInt) {field : TextField}
    (htext : c.text field = none) :
    (((List.range (rounds c left field)).map (chunk c left field)).map CString.bytes).flatten ≠
      [] := by
  have hone := rounds_null hleft htext
  have hnull : (chunk c left field 0).bytes = _ := chunk_null htext
  have hlength : (CString.nullText.bytes.take (left.toInt.toNat - 1)).length ≠ 0 := by
    have hsix : CString.nullText.bytes.length = 6 := by decide
    rw [List.length_take, hsix]
    omega
  intro hempty
  rw [hone] at hempty
  simp only [List.range_one, List.map_singleton, List.flatten_singleton] at hempty
  rw [hnull] at hempty
  exact hlength (by rw [hempty]; rfl)

/-- One chunk is too little for a text of 2³¹ bytes or more. -/
theorem chunks_of_ge (hleft : 2 ≤ left.toInt) {field : TextField} {text : CString}
    (htext : c.text field = some text) (hlen : 2 ^ 31 ≤ text.strlen) :
    (((List.range (rounds c left field)).map (chunk c left field)).map CString.bytes).flatten ≠
      text.bytes := by
  intro heq
  have hone := rounds_le_one hleft htext hlen
  have hlt := left.toInt_lt
  have hshort : (((List.range (rounds c left field)).map (chunk c left field)).map
      CString.bytes).flatten.length < 2 ^ 31 := by
    rcases Nat.le_one_iff_eq_zero_or_eq_one.mp hone with hzero | hone
    · simp [hzero]
    · have hchunk : (chunk c left field 0).bytes.length ≤ left.toInt.toNat - 1 :=
        chunk_length_le 0
      rw [hone]
      simp only [List.range_one, List.map_singleton, List.flatten_singleton]
      omega
  rw [heq] at hshort
  exact absurd hlen (Nat.not_le.mpr hshort)

end

/-- A text arrives whole exactly if it is there, is shorter than 2³¹ bytes, and the
quotient and the remainder of its length by `left` add up to less than `left`. -/
theorem serviceCheck_lossless_iff {printf : UInt64 → Option CString} {o : Options}
    {c : ServiceCheckData} (h : Splits printf o c) (realloc : Nat → Bool) (field : TextField) :
    (∃ messages, serviceCheckMessages printf o realloc c = .ok messages ∧
      Lossless c field messages) ↔
    ∃ text, c.text field = some text ∧ text.strlen < 2 ^ 31 ∧
      text.strlen / (textRoom printf o c).toInt.toNat +
        text.strlen % (textRoom printf o c).toInt.toNat < (textRoom printf o c).toInt.toNat := by
  obtain ⟨messages, hmessages, hplan⟩ := serviceCheckMessages_follows h realloc
  have hstored := storedChunks_plan hplan field
  have honly : (∃ messages, serviceCheckMessages printf o realloc c = .ok messages ∧
      Lossless c field messages) ↔ Lossless c field messages := by
    simp [hmessages]
  rw [honly, Lossless, hstored]
  cases htext : c.text field with
  | none =>
      constructor
      · intro heq
        exact absurd heq (chunks_of_null h.wide htext)
      · rintro ⟨text, hsome, -⟩
        cases hsome
  | some text =>
      by_cases hlen : text.strlen < 2 ^ 31
      · simp only [Option.elim, Option.some.injEq, exists_eq_left', hlen, true_and]
        exact chunks_of_lt h.wide htext hlen
      · constructor
        · intro heq
          exact absurd heq (chunks_of_ge h.wide htext (Nat.le_of_not_lt hlen))
        · rintro ⟨text', hsome, hlen', -⟩
          cases hsome
          exact absurd hlen' hlen

/-! ## A check that loses a byte -/

/-- A check whose plugin reported 19 bytes and neither long output nor performance data. -/
def loadCheck : ServiceCheckData where
  type := servicecheckProcessed
  timestamp := 1325376000
  hostName := some (.lit "srv1")
  serviceDescription := some (.lit "load")
  checkType := 0
  currentAttempt := 1
  maxAttempts := 3
  stateType := 1
  state := 0
  commandName := some (.lit "check_load")
  executionTime := 0x3FD0000000000000
  latency := 0
  output := some (.lit "load average: 0.125")
  longOutput := some (.lit "")
  perfData := some (.lit "")
  object := ⟨⟨some (.lit "192.0.2.7"), []⟩, [], [], none, none⟩

/-- `%.17g` of the two reals of that check. -/
def loadPrintf (value : UInt64) : Option CString :=
  some (if value = 0 then .lit "0" else .lit "0.25")

theorem loadPrintf_writesReals : WritesReals loadPrintf := by
  intro value
  refine ⟨_, rfl, ?_⟩
  split <;> decide

/-- The default options with another `max_size`. The base of `loadCheck` takes 349 bytes. -/
def limitedTo (maxSize : Int32) : Options := { Options.default with maxSize := maxSize }

theorem serviceCheckBase_maxSize (o : Options) (c : ServiceCheckData) (maxSize : Int32) :
    serviceCheckBase { o with maxSize := maxSize } c = serviceCheckBase o c := by
  simp only [serviceCheckBase_eq, serviceCheckEntries, hostgroupEntries, servicegroupEntries,
    customVariableEntries, urlEntries, optionEntries, serviceCheckOptions, Option.all_none,
    List.filter_cons, List.filter_nil, if_true, List.map_cons, List.map_nil, EventOption.item]

theorem loadCheck_room (maxSize : Int32) :
    textRoom loadPrintf (limitedTo maxSize) loadCheck = maxSize - 349 := by
  have hsize : xstrlen (jsonDumps loadPrintf (serviceCheckBase .default loadCheck)) = 349 := by
    decide +kernel
  rw [textRoom, leftOf, baseSize, limitedTo, serviceCheckBase_maxSize, hsize]
  rfl

theorem loadCheck_splits : Splits loadPrintf (limitedTo 359) loadCheck where
  processed := rfl
  wide := by
    rw [loadCheck_room]
    decide
  several := by
    rw [loadCheck_room]
    decide

/-- The same check with an output that two chunks of 9 bytes are enough for. -/
def shorterCheck : ServiceCheckData := { loadCheck with output := some (.lit "load average: 0.12") }

theorem shorterCheck_room (maxSize : Int32) :
    textRoom loadPrintf (limitedTo maxSize) shorterCheck = maxSize - 349 :=
  loadCheck_room maxSize

theorem shorterCheck_splits : Splits loadPrintf (limitedTo 359) shorterCheck where
  processed := rfl
  wide := by
    rw [shorterCheck_room]
    decide
  several := by
    rw [shorterCheck_room]
    decide

theorem serviceCheck_lossless_iff_shorter :
    ∃ messages, serviceCheckMessages loadPrintf (limitedTo 359) (fun _ => true) shorterCheck =
      .ok messages ∧ Lossless shorterCheck .output messages :=
  (serviceCheck_lossless_iff shorterCheck_splits (fun _ => true) .output).mpr
    ⟨.lit "load average: 0.12", rfl, by decide, by rw [shorterCheck_room]; decide⟩

/-- Two chunks of 9 bytes are sent of 19. -/
theorem loadCheck_output_cut :
    Splits loadPrintf (limitedTo 359) loadCheck ∧
    ∃ messages, serviceCheckMessages loadPrintf (limitedTo 359) (fun _ => true) loadCheck =
      .ok messages ∧ ¬ Lossless loadCheck .output messages := by
  obtain ⟨messages, hmessages, hplan⟩ :=
    serviceCheckMessages_follows loadCheck_splits (fun _ => true)
  refine ⟨loadCheck_splits, messages, hmessages, ?_⟩
  rw [Lossless, storedChunks_plan hplan, loadCheck_room]
  decide

end Neb2Amqp
