import Neb2Amqp.Events.Pieces
import Neb2Amqp.Events.SplitArithmetic
import Neb2Amqp.Events.SplitKeys

/-!
# Whether every text is sent

A text is sent if its key is in the object some payload is the whole dump of. The builder adds the
texts to the object only where they fit; where they do not, it is left to the number of
messages to say so, and with `left` negative that number can be 1.
-/

namespace Neb2Amqp

open CLib

/-- Some payload is the whole dump of an object that has the key of the text. -/
def Sent (printf : UInt64 → Option CString) (messages : List Message) (field : TextField) : Prop :=
  ∃ m ∈ messages, jsonDumps printf m.jdata = some m.payload ∧ field.name ∈ m.jdata.keys

/-- Under these texts every string of the base and every text is UTF-8, and the JSON of both is not
longer than `UINT_MAX`. -/
def WrittenWhole (printf : UInt64 → Option CString) (base : JsonObject) (texts : Texts) : Prop :=
  (∀ p ∈ overlay base.pairs (held texts), ∀ s ∈ p.2.texts, utf8CheckString s = true) ∧
    layerSize printf base texts ≤ uintMax

/-- With `left` negative, the loop for the text makes a round. -/
def LoopRuns (c : ServiceCheckData) (left : Int32) (field : TextField) : Prop :=
  let n := (toInt (xstrlen (c.text field))).toInt
  n < -left.toInt ∧ ¬ (left.toInt = -1 ∧ n = -(2 ^ 31 - 1))

section
variable {printf : UInt64 → Option CString} {base : JsonObject} {m : Message} {texts : Texts}

theorem Shows.whole_iff (hreals : WritesReals printf) (h : Shows printf base m texts)
    (hbase : base.pairs ≠ []) :
    jsonDumps printf m.jdata = some m.payload ↔ WrittenWhole printf base texts := by
  rw [h.payload_eq_iff hbase, WrittenWhole, Writable]
  simp only [dumpValue_isSome_iff hreals]

theorem shows_base (printf : UInt64 → Option CString) (base : JsonObject) (key : Option CString) :
    Shows printf base ⟨key, payloadOf (jsonDumps printf base), base, none⟩ .none := by
  refine ⟨rfl, ?_⟩
  rw [held_none, overlay_nil]

theorem Shows.sent_iff (hreals : WritesReals printf) (h : Shows printf base m texts)
    (hbase : base.pairs ≠ []) (field : TextField) :
    Sent printf [m] field ↔
      ((texts field).isSome ∨ field.name ∈ base.keys) ∧ WrittenWhole printf base texts := by
  have hkeys : field.name ∈ m.jdata.keys ↔ (texts field).isSome ∨ field.name ∈ base.keys :=
    h.name_mem_keys
  unfold Sent
  rw [← h.whole_iff hreals hbase, ← hkeys]
  constructor
  · intro hsent
    obtain ⟨m', hm', hwhole, hkey⟩ := hsent
    obtain rfl := List.mem_singleton.mp hm'
    exact ⟨hkey, hwhole⟩
  · exact fun hsent => ⟨m, List.mem_singleton_self m, hsent.2, hsent.1⟩

end

/-! ## Which loops run -/

section
variable {c : ServiceCheckData} {left : Int32} {field : TextField}

theorem rounds_pos_iff_loopRuns (hneg : left.toInt < 0)
    (h : ¬ (LeftUse.division (toInt (xstrlen (c.text field))) left).Faults) :
    0 < rounds c left field ↔ LoopRuns c left field := by
  have hdivision : left ≠ 0 ∧ ¬ (toInt (xstrlen (c.text field)) = Int32.minValue ∧ left = -1) :=
    not_or.mp h
  have hsucc := toInt_succ (toInt (xstrlen (c.text field)) / left)
  rw [toInt_div hdivision.2] at hsucc
  unfold rounds LoopRuns
  simp only []
  have hlo := (toInt (xstrlen (c.text field))).le_toInt
  have hlt := (toInt (xstrlen (c.text field))).toInt_lt
  generalize (toInt (xstrlen (c.text field))).toInt = n at hsucc hlo hlt
  have hmax := tdiv_eq_max_iff hlo hlt (show left.toInt ≠ 0 by omega)
  rw [Int.lt_toNat, hsucc]
  have hquot := one_le_tdiv_iff (a := n) (show 0 < -left.toInt by omega)
  rw [Int.tdiv_neg] at hquot
  split <;> omega

theorem not_division_faults {a : Int32} (hleft : left.toInt < 0) (hlt : left.toInt < a.toInt) :
    ¬ (LeftUse.division a left).Faults := by
  have hmin : Int32.minValue.toInt = -2 ^ 31 := by decide
  have hlo := left.le_toInt
  rintro (rfl | ⟨rfl, -⟩)
  · exact absurd hleft (by decide)
  · omega

theorem splitLoop_nil {printf : UInt64 → Option CString} {key message : Option CString}
    {rounds : Nat} {i : Int32} {jdata jdata' : JsonObject} {messages : List Message}
    (hleft : left < 1)
    (h : splitLoop printf key message field left rounds i jdata = .ok (messages, jdata')) :
    messages = [] := by
  cases rounds with
  | zero =>
      cases h
      rfl
  | succ rounds =>
      rw [splitLoop] at h
      obtain ⟨updated, hupdated, -⟩ := bind_ok h
      rw [n2aNebstructServiceCheckDataUpdateJson, if_pos hleft] at hupdated
      cases hupdated

theorem splitMessages_nil {printf : UInt64 → Option CString} {key : Option CString}
    {jdata : JsonObject} {messages : List Message} (hleft : left < 1)
    (h : splitMessages printf key c left jdata = .ok messages) : messages = [] := by
  apply List.eq_nil_iff_forall_not_mem.mpr
  intro m hm
  obtain ⟨field, before, sent, after, hsplit, hsent⟩ := mem_splitMessages h hm
  obtain ⟨temp, -, hloop⟩ := bind_ok hsplit
  rw [splitLoop_nil hleft hloop] at hsent
  exact absurd hsent List.not_mem_nil

theorem splitMessageUses_faultless_iff (hleft : left.toInt < 0) (field : TextField) :
    (∀ use ∈ splitMessageUses (c.text field) left, ¬ use.Faults) ↔ ¬ LoopRuns c left field := by
  have hsize : left < 1 := lt_one_iff_toInt_lt_one.mpr (by omega)
  rw [splitMessageUses, List.forall_mem_cons, List.forall_mem_cons]
  by_cases hdivision : (LeftUse.division (toInt (xstrlen (c.text field))) left).Faults
  · have hruns : LoopRuns c left field := by
      have hmin : Int32.minValue.toInt = -2 ^ 31 := by decide
      have hone : (-1 : Int32).toInt = -1 := by decide
      rcases hdivision with rfl | ⟨hlength, rfl⟩
      · exact absurd hleft (by decide)
      · unfold LoopRuns
        rw [hlength, hmin, hone]
        decide
    exact iff_of_false (fun h => h.1 hdivision) (fun h => h hruns)
  · rw [← rounds_pos_iff_loopRuns hleft hdivision]
    constructor
    · rintro ⟨-, -, hloop⟩ hpos
      have hmem : LeftUse.xalloca left ∈
          (List.replicate (rounds c left field) (updateJsonUses left)).flatten := by
        apply List.mem_flatten_of_mem (List.mem_replicate.mpr ⟨Nat.ne_of_gt hpos, rfl⟩)
        exact List.mem_cons_self
      exact hloop _ hmem hsize
    · intro hnone
      have hzero : rounds c left field = 0 := Nat.eq_zero_of_not_pos hnone
      refine ⟨hdivision, not_false, ?_⟩
      change ∀ use ∈ (List.replicate (rounds c left field) (updateJsonUses left)).flatten, _
      rw [hzero]
      exact fun use hmem => absurd hmem List.not_mem_nil

theorem splitMessagesUses_faultless_iff (hleft : left.toInt < 0) :
    (∀ use ∈ splitMessagesUses c left, ¬ use.Faults) ↔ ∀ field, ¬ LoopRuns c left field := by
  have hfield := splitMessageUses_faultless_iff (c := c) hleft
  simp only [splitMessagesUses, List.forall_mem_append, List.forall_mem_cons, List.not_mem_nil,
    false_imp_iff, implies_true, and_true]
  constructor
  · rintro ⟨⟨⟨-, hlong⟩, houtput⟩, hperf⟩ (_ | _ | _)
    · exact (hfield .longOutput).mp hlong
    · exact (hfield .output).mp houtput
    · exact (hfield .perfData).mp hperf
  · intro hnone
    have hlong := (hfield .longOutput).mpr (hnone .longOutput)
    have houtput := (hfield .output).mpr (hnone .output)
    have hperf := (hfield .perfData).mpr (hnone .perfData)
    exact ⟨⟨⟨⟨hlong _ List.mem_cons_self, houtput _ List.mem_cons_self,
      hperf _ List.mem_cons_self⟩, hlong⟩, houtput⟩, hperf⟩

end

/-! ## The branches -/

section
variable {printf : UInt64 → Option CString} {o : Options} {c : ServiceCheckData}

/-- A split check sends a text with a piece of it in a message that is written whole, or under the
key of the base. -/
theorem sent_planned_iff (hreals : WritesReals printf) {messages : List Message}
    (hleft : 1 ≤ (textRoom printf o c).toInt)
    (hplan : List.Forall₂ (Follows printf (serviceCheckBase o c)) messages
      (plan c (textRoom printf o c))) (field : TextField) :
    Sent printf messages field ↔
      ∃ other k, k < pieceCount c (textRoom printf o c).toInt other ∧
        ((piecesAt c (textRoom printf o c).toInt other k field).isSome ∨
          field.name ∈ (serviceCheckBase o c).keys) ∧
        WrittenWhole printf (serviceCheckBase o c)
          (piecesAt c (textRoom printf o c).toInt other k) := by
  constructor
  · intro h
    obtain ⟨m, hm, hwhole, hkey⟩ := h
    obtain ⟨layer, hlayer, hfollows⟩ := exists_layer hplan m hm
    obtain ⟨other, k, hk, rfl⟩ := (mem_plan_pieces hleft).mp hlayer
    exact ⟨other, k, hk, hfollows.name_mem_keys.mp hkey,
      (hfollows.whole_iff hreals (serviceCheckBase_ne_nil o c)).mp hwhole⟩
  · intro h
    obtain ⟨other, k, hk, hkey, hwhole⟩ := h
    obtain ⟨m, hm, hfollows⟩ :=
      exists_message hplan _ ((mem_plan_pieces hleft).mpr ⟨other, k, hk, rfl⟩)
    exact ⟨m, hm, (hfollows.whole_iff hreals (serviceCheckBase_ne_nil o c)).mpr hwhole,
      hfollows.name_mem_keys.mpr hkey⟩

variable (printf o c) in
/-- With `left` negative, a check of less text than that is reported as one message,
and the texts are not in it. -/
theorem serviceCheckMessages_base (hprocessed : c.type = servicecheckProcessed)
    (hleft : (textRoom printf o c).toInt < 0)
    (hseveral : toInt (textLength c) > textRoom printf o c)
    (hless : (toInt (textLength c)).toInt < -(textRoom printf o c).toInt) (realloc : Nat → Bool) :
    serviceCheckMessages printf o realloc c =
      .ok [⟨serviceCheckKey o realloc c, payloadOf (jsonDumps printf (serviceCheckBase o c)),
        serviceCheckBase o c, none⟩] := by
  have hlt := Int32.lt_iff_toInt_lt.mp hseveral
  have hdivision := not_division_faults hleft hlt
  have hquot : (toInt (textLength c)).toInt.tdiv (textRoom printf o c).toInt = 0 := by
    have hnatAbs := Int.natAbs_tdiv (toInt (textLength c)).toInt (textRoom printf o c).toInt
    have hzero : (toInt (textLength c)).toInt.natAbs / (textRoom printf o c).toInt.natAbs = 0 :=
      Nat.div_eq_of_lt (by omega)
    change _ = (toInt (textLength c)).toInt.natAbs / (textRoom printf o c).toInt.natAbs at hnatAbs
    omega
  have hone : toInt (textLength c) / textRoom printf o c + 1 = 1 := by
    apply Int32.toInt_inj.mp
    rw [toInt_succ, toInt_div (not_or.mp hdivision).2, hquot]
    decide
  have hdiv := intDiv_eq_ok_iff.mpr ⟨hdivision, rfl⟩
  rw [serviceCheckMessages, if_pos hprocessed, toJson_several hseveral, hdiv]
  exact if_pos hone

variable (printf o c) in
/-- With `left` negative and texts that are not less than that, a check that is sent at
all is sent without a message. -/
theorem serviceCheckMessages_none (hprocessed : c.type = servicecheckProcessed)
    (hleft : (textRoom printf o c).toInt < 0)
    (hmore : -(textRoom printf o c).toInt ≤ (toInt (textLength c)).toInt) (realloc : Nat → Bool) :
    (Completes (serviceCheckMessages printf o realloc c) ↔
      ∀ field, ¬ LoopRuns c (textRoom printf o c) field) ∧
    ∀ messages, serviceCheckMessages printf o realloc c = .ok messages → messages = [] := by
  have hseveral : toInt (textLength c) > textRoom printf o c := by
    refine Int32.lt_iff_toInt_lt.mpr ?_
    omega
  have hdivision := not_division_faults hleft (Int32.lt_iff_toInt_lt.mp hseveral)
  have hone : toInt (textLength c) / textRoom printf o c + 1 ≠ 1 := by
    intro hone
    have hsucc := toInt_succ (toInt (textLength c) / textRoom printf o c)
    have hquot := (one_le_tdiv_iff (show 0 < -(textRoom printf o c).toInt by omega)).mpr hmore
    have honeInt : (1 : Int32).toInt = 1 := by decide
    rw [hone, toInt_div (not_or.mp hdivision).2, honeInt] at hsucc
    rw [Int.tdiv_neg] at hquot
    split at hsucc <;> omega
  have hdiv := intDiv_eq_ok_iff.mpr ⟨hdivision, rfl⟩
  have hsize : textRoom printf o c < 1 := lt_one_iff_toInt_lt_one.mpr (by omega)
  have hsplit : serviceCheckMessages printf o realloc c =
      splitMessages printf (serviceCheckKey o realloc c) c (textRoom printf o c)
        (serviceCheckBase o c) := by
    rw [serviceCheckMessages, if_pos hprocessed, toJson_several hseveral, hdiv]
    exact if_neg hone
  rw [hsplit, splitMessages_completes_iff, splitMessagesUses_faultless_iff hleft]
  exact ⟨Iff.rfl, fun messages hmessages => splitMessages_nil hsize hmessages⟩

theorem textLength_of_null (hnull : ∀ field, c.text field = none) : textLength c = 0 := by
  have hlong : c.longOutput = none := hnull .longOutput
  have houtput : c.output = none := hnull .output
  have hperf : c.perfData = none := hnull .perfData
  rw [textLength, hlong, houtput, hperf]
  rfl

end

section
variable {printf : UInt64 → Option CString} {o : Options} {c : ServiceCheckData}

/-- A check whose texts fit is one message that has all of them, if it is written whole. -/
theorem sent_of_fits_iff (hreals : WritesReals printf) (hprocessed : c.type = servicecheckProcessed)
    (hfits : (toInt (textLength c)).toInt ≤ (textRoom printf o c).toInt) (realloc : Nat → Bool) :
    (∀ messages, serviceCheckMessages printf o realloc c = .ok messages →
      ∀ field, (c.text field).isSome → Sent printf messages field) ↔
      ∀ field, (c.text field).isSome → WrittenWhole printf (serviceCheckBase o c) c.text := by
  have hsingle : ¬ toInt (textLength c) > textRoom printf o c := by
    intro hlt
    have hlt := Int32.lt_iff_toInt_lt.mp hlt
    omega
  obtain ⟨m, hone, hshows⟩ := serviceCheckMessages_single printf o c hprocessed hsingle realloc
  simp only [hone, Except.ok.injEq, forall_eq',
    hshows.sent_iff hreals (serviceCheckBase_ne_nil o c)]
  exact forall₂_congr fun field hsome => and_iff_right (.inl hsome)

theorem sent_without_message_iff (hprocessed : c.type = servicecheckProcessed)
    (hleft : (textRoom printf o c).toInt < 0)
    (hmore : -(textRoom printf o c).toInt ≤ (toInt (textLength c)).toInt) (realloc : Nat → Bool) :
    (∀ messages, serviceCheckMessages printf o realloc c = .ok messages →
      ∀ field, (c.text field).isSome → Sent printf messages field) ↔
      ∃ field, LoopRuns c (textRoom printf o c) field := by
  obtain ⟨hcompletes, hnil⟩ := serviceCheckMessages_none printf o c hprocessed hleft hmore realloc
  constructor
  · intro hall
    by_contra hnone
    obtain ⟨messages, hmessages⟩ := hcompletes.mpr (not_exists.mp hnone)
    have hnull : ∀ field, c.text field = none := by
      intro field
      by_contra htext
      obtain ⟨m, hm, -⟩ := hall messages hmessages field (Option.isSome_iff_ne_none.mpr htext)
      rw [hnil messages hmessages] at hm
      exact absurd hm List.not_mem_nil
    have hzero : (toInt 0).toInt = 0 := by decide
    rw [textLength_of_null hnull, hzero] at hmore
    omega
  · rintro ⟨other, hruns⟩ messages hmessages
    exact absurd hruns (hcompletes.mp ⟨messages, hmessages⟩ other)

end

end Neb2Amqp
