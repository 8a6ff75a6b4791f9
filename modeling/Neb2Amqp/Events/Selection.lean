import Neb2Amqp.Events.OtherSizes

/-!
# Which texts an oversized host check keeps

When the object without its texts is longer than `max_size` already, only the texts that
pass `n2a_str_maxsize` are added. Those are the texts at least as long as the excess.
-/

namespace Neb2Amqp

open CLib

/-- The texts the builder adds. -/
def addedTexts (printf : UInt64 → Option CString) (o : Options) (c : HostCheckData) : Texts :=
  fun field =>
    if (hostCheckCmp printf o c).all fun cmp => cmp (.stringNocheck (c.text field)) then c.text field
    else none

/-- The builder adds this text. -/
def Added (printf : UInt64 → Option CString) (o : Options) (c : HostCheckData)
    (field : TextField) : Prop :=
  (addedTexts printf o c field).isSome

section
variable {printf : UInt64 → Option CString} {o : Options} {c : HostCheckData}

/-- These texts and no others lie on top of the base in the object that is sent. -/
theorem hostCheckJson_perm (printf : UInt64 → Option CString) (o : Options) (c : HostCheckData) :
    (hostCheckJson printf o c).pairs.Perm
      (overlay (hostCheckBase o c).pairs (held (addedTexts printf o c))) := by
  have hset : ∀ (pass : Bool) (jdata : JsonObject) (key : CString) (text : Option CString),
      (if pass then jsonObjectSet jdata key (jsonStringNocheck text) else jdata) =
        jsonObjectSet jdata key (jsonStringNocheck (if pass then text else none)) := by
    intro pass jdata key text
    cases pass <;> rfl
  have hsame : hostCheckJson printf o c = n2aAddOptionsToEvent o
      [(.lit "output", .stringNocheck (addedTexts printf o c .output)),
        (.lit "long_output", .stringNocheck (addedTexts printf o c .longOutput)),
        (.lit "perf_data", .stringNocheck (addedTexts printf o c .perfData))]
      (hostCheckBase o c) none := by
    rw [hostCheckJson]
    generalize hostCheckBase o c = base
    simp only [n2aAddOptionsToEvent, hostCheckAdditionals, List.foldl_cons, List.foldl_nil,
      EventOption.item, hset, Option.all_none, if_true]
    rfl
  rw [hsame]
  exact additionals_perm o (hostCheckBase o c) (addedTexts printf o c)

theorem excessOf_eq {ref : Nat} (hover : o.maxSize.toInt < ref) (href : ref ≤ uintMax) :
    (excessOf o ref : Int) = ref - o.maxSize.toInt := by
  have huint : uintMax = 4294967295 := rfl
  have hlo := o.maxSize.le_toInt
  have hlt := o.maxSize.toInt_lt
  have hvalue := toNat_toUInt64 o.maxSize
  have hsize := o.maxSize.toInt64.toUInt64.toNat_lt
  rw [excessOf, UInt64.toNat_sub, UInt64.toNat_ofNat_of_lt' (by
    rw [show UInt64.size = 18446744073709551616 from rfl]
    omega)]
  generalize o.maxSize.toInt64.toUInt64.toNat = m at hvalue hsize
  omega

theorem added_iff {field : TextField} :
    Added printf o c field ↔ ∃ text, c.text field = some text ∧
      ((hostCheckCmp printf o c).all fun cmp => cmp (.stringNocheck (some text))) = true := by
  rw [Added, addedTexts]
  cases c.text field with
  | none => simp
  | some text => simp [Option.isSome_iff_exists]

/-- A text that is added to an oversized message is at least as long as the excess, or
the filter is not in place, since the length of the base is negative as an `int`. -/
theorem added_iff_of_oversized
    (hover : o.maxSize.toInt < xstrlen (jsonDumps printf (hostCheckBase o c))) {field : TextField} :
    Added printf o c field ↔ ∃ text, c.text field = some text ∧
      (toInt (xstrlen (jsonDumps printf (hostCheckBase o c))) > o.maxSize →
        (xstrlen (jsonDumps printf (hostCheckBase o c)) : Int) - o.maxSize.toInt ≤
          xstrlen (some text)) := by
  have hexcess := excessOf_eq hover (xstrlen_le_uintMax _)
  rw [added_iff, hostCheckCmp]
  refine exists_congr fun text => and_congr_right fun _ => ?_
  split
  · rename_i hfilter
    have hpass : ∀ length, ((some (n2aStrMaxsize length)).all fun cmp =>
        cmp (.stringNocheck (some text))) = true ↔ length ≤ xstrlen (some text) :=
      fun length => decide_eq_true_iff
    rw [hpass]
    simp only [hfilter, true_imp_iff]
    omega
  · rename_i hfilter
    exact iff_of_true rfl fun h => absurd h hfilter

/-- The object that is sent has the text under its key. -/
def Included (printf : UInt64 → Option CString) (o : Options) (c : HostCheckData)
    (field : TextField) : Prop :=
  ∃ text ∈ c.text field, (field.name, JsonValue.string text) ∈ (hostCheckJson printf o c).pairs

/-- So had the object before its texts, from a custom variable. -/
def InBase (o : Options) (c : HostCheckData) (field : TextField) : Prop :=
  ∃ text ∈ c.text field, (field.name, JsonValue.string text) ∈ (hostCheckBase o c).pairs

theorem mem_hostCheckJson {field : TextField} {text : CString} :
    (field.name, JsonValue.string text) ∈ (hostCheckJson printf o c).pairs ↔
      addedTexts printf o c field = some text ∨
        ((field.name, JsonValue.string text) ∈ (hostCheckBase o c).pairs ∧ ¬ Added printf o c field) := by
  rw [(hostCheckJson_perm printf o c).mem_iff, mem_overlay, name_mem_keysOf_held, Added, mem_held]
  refine or_congr_left ?_
  constructor
  · intro hheld
    obtain ⟨other, text', htext', heq⟩ := hheld
    obtain ⟨hname, hvalue⟩ := Prod.mk.inj heq
    obtain rfl := name_injective hname
    cases hvalue
    exact htext'
  · exact fun htext => ⟨field, text, htext, rfl⟩

theorem included_iff {field : TextField} :
    Included printf o c field ↔ Added printf o c field ∨ InBase o c field := by
  have hkept : ∀ text, addedTexts printf o c field = some text → c.text field = some text := by
    intro text htext
    rw [addedTexts] at htext
    split at htext
    · exact htext
    · cases htext
  constructor
  · intro hincluded
    obtain ⟨text, htext, hpair⟩ := hincluded
    rcases mem_hostCheckJson.mp hpair with hadded | ⟨hbase, -⟩
    · exact Or.inl (Option.isSome_iff_exists.mpr ⟨text, hadded⟩)
    · exact Or.inr ⟨text, htext, hbase⟩
  · intro h
    by_cases hadded : Added printf o c field
    · obtain ⟨text, htext⟩ := Option.isSome_iff_exists.mp hadded
      exact ⟨text, hkept text htext, mem_hostCheckJson.mpr (Or.inl htext)⟩
    · obtain ⟨text, htext, hbase⟩ := h.resolve_left hadded
      exact ⟨text, htext, mem_hostCheckJson.mpr (Or.inr ⟨hbase, hadded⟩)⟩

/-- A text that is shorter than the excess is added only when nothing is filtered. -/
theorem included_iff_inBase
    (hover : o.maxSize.toInt < xstrlen (jsonDumps printf (hostCheckBase o c)))
    (hshort : ∀ field text, c.text field = some text → ¬ InBase o c field →
      (xstrlen (some text) : Int) <
        xstrlen (jsonDumps printf (hostCheckBase o c)) - o.maxSize.toInt)
    (hfilter : toInt (xstrlen (jsonDumps printf (hostCheckBase o c))) > o.maxSize) (field : TextField) :
    Included printf o c field ↔ InBase o c field := by
  rw [included_iff]
  refine ⟨fun h => ?_, Or.inr⟩
  by_contra hbase
  obtain ⟨text, htext, hlong⟩ := (added_iff_of_oversized hover).mp (h.resolve_right hbase)
  exact Int.not_lt.mpr (hlong hfilter) (hshort field text htext hbase)

/-- Of the texts the object sent has the short ones, and none is added that is as long as the
excess: exactly if every text there is, unless the base has it already, is shorter than the excess,
and where texts are selected the base has with a text those that are not longer. -/
theorem hostCheck_selection_iff
    (hover : o.maxSize.toInt < xstrlen (jsonDumps printf (hostCheckBase o c))) :
    ((∀ short long, (c.text short).isSome → (c.text long).isSome →
        xstrlen (c.text short) ≤ xstrlen (c.text long) →
        Included printf o c long → Included printf o c short) ∧
      ∀ field, Included printf o c field → ¬ InBase o c field →
        (xstrlen (c.text field) : Int) <
          xstrlen (jsonDumps printf (hostCheckBase o c)) - o.maxSize.toInt) ↔
    (∀ field text, c.text field = some text → ¬ InBase o c field →
      (xstrlen (some text) : Int) <
        xstrlen (jsonDumps printf (hostCheckBase o c)) - o.maxSize.toInt) ∧
    (toInt (xstrlen (jsonDumps printf (hostCheckBase o c))) > o.maxSize →
      ∀ short long, (c.text short).isSome → (c.text long).isSome →
        xstrlen (c.text short) ≤ xstrlen (c.text long) → InBase o c long → InBase o c short) := by
  have hadded := @added_iff_of_oversized printf o c hover
  constructor
  · intro h
    obtain ⟨hfavours, hnone⟩ := h
    have hshort : ∀ field text, c.text field = some text → ¬ InBase o c field →
        (xstrlen (some text) : Int) <
          xstrlen (jsonDumps printf (hostCheckBase o c)) - o.maxSize.toInt := by
      intro field text htext hbase
      by_contra hlong
      have hincluded : Included printf o c field :=
        included_iff.mpr (Or.inl (hadded.mpr ⟨text, htext, fun _ => Int.not_lt.mp hlong⟩))
      have hlt := hnone field hincluded hbase
      rw [htext] at hlt
      exact hlong hlt
    refine ⟨hshort, fun hfilter short long hshortSome hlongSome hle hbase => ?_⟩
    have hbases := included_iff_inBase hover hshort hfilter
    exact (hbases short).mp (hfavours short long hshortSome hlongSome hle ((hbases long).mpr hbase))
  · intro h
    obtain ⟨hshort, hbases⟩ := h
    constructor
    · intro short long hshortSome hlongSome hle hlong
      by_cases hfilter : toInt (xstrlen (jsonDumps printf (hostCheckBase o c))) > o.maxSize
      · have hsame := included_iff_inBase hover hshort hfilter
        exact (hsame short).mpr
          (hbases hfilter short long hshortSome hlongSome hle ((hsame long).mp hlong))
      · obtain ⟨text, htext⟩ := Option.isSome_iff_exists.mp hshortSome
        exact included_iff.mpr (Or.inl (hadded.mpr ⟨text, htext, fun h => absurd h hfilter⟩))
    · intro field hincluded hbase
      obtain ⟨text, htext, -⟩ := hincluded
      rw [htext]
      exact hshort field text htext hbase

end

/-- A host check with 41 bytes of output and 10 of performance data. The rest takes 336. -/
def pingCheck : HostCheckData where
  type := hostcheckProcessed
  timestamp := 1325376000
  hostName := some (.lit "srv1")
  currentAttempt := 1
  checkType := 0
  maxAttempts := 3
  stateType := 1
  state := 0
  commandName := some (.lit "check-host-alive")
  executionTime := 0x3FD0000000000000
  latency := 0
  output := some (.lit "PING OK - Packet loss = 0%, RTA = 0.42 ms")
  longOutput := none
  perfData := some (.lit "rta=0.42ms")
  object := ⟨⟨some (.lit "192.0.2.7"), []⟩, [], none, none⟩

theorem pingCheck_not_inBase (maxSize : Int32) (field : TextField) :
    ¬ InBase (limitedTo maxSize) pingCheck field := by
  have hkeys : ∀ field : TextField, field.name ∉ (hostCheckBase Options.default pingCheck).keys := by
    intro field
    cases field <;> decide +kernel
  intro hbase
  obtain ⟨text, -, hpair⟩ := hbase
  exact hkeys field (List.mem_map_of_mem (f := Prod.fst) hpair)

/-- An excess of 86 bytes keeps neither. -/
theorem hostCheck_selection_iff_ping :
    (∀ short long, (pingCheck.text short).isSome → (pingCheck.text long).isSome →
        xstrlen (pingCheck.text short) ≤ xstrlen (pingCheck.text long) →
        Included loadPrintf (limitedTo 250) pingCheck long →
        Included loadPrintf (limitedTo 250) pingCheck short) ∧
      ∀ field, Included loadPrintf (limitedTo 250) pingCheck field →
        ¬ InBase (limitedTo 250) pingCheck field →
        (xstrlen (pingCheck.text field) : Int) <
          xstrlen (jsonDumps loadPrintf (hostCheckBase (limitedTo 250) pingCheck)) -
            (limitedTo 250).maxSize.toInt := by
  have hsize : xstrlen (jsonDumps loadPrintf (hostCheckBase (limitedTo 250) pingCheck)) = 336 := by
    decide +kernel
  have hmax : (limitedTo 250).maxSize.toInt = 250 := by decide
  refine (hostCheck_selection_iff (by rw [hsize, hmax]; decide)).mpr ⟨?_, ?_⟩
  · intro field text htext _
    rw [hsize, hmax]
    cases field <;> cases htext <;> decide
  · intro _ _ long _ _ _ hbase
    exact absurd hbase (pingCheck_not_inBase 250 long)

/-- An excess of 36 bytes keeps the output and drops the shorter performance data. -/
theorem pingCheck_keeps_long :
    (limitedTo 300).maxSize.toInt <
      xstrlen (jsonDumps loadPrintf (hostCheckBase (limitedTo 300) pingCheck)) ∧
    Included loadPrintf (limitedTo 300) pingCheck .output ∧
    ¬ InBase (limitedTo 300) pingCheck .output ∧
    (xstrlen (jsonDumps loadPrintf (hostCheckBase (limitedTo 300) pingCheck)) : Int) -
      (limitedTo 300).maxSize.toInt ≤ xstrlen (pingCheck.text .output) ∧
    (pingCheck.text .perfData).isSome ∧
    xstrlen (pingCheck.text .perfData) ≤ xstrlen (pingCheck.text .output) ∧
    ¬ Included loadPrintf (limitedTo 300) pingCheck .perfData := by
  have hbase := pingCheck_not_inBase 300
  simp only [included_iff, hbase, or_false, not_false_eq_true, true_and]
  unfold Added
  decide +kernel

end Neb2Amqp
