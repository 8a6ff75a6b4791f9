import Neb2Amqp.Events.SplitText

/-!
# What is done with left

`left` is what `max_size` leaves beside the base. The code divides by it, takes it as
the size of a buffer and counts with the quotients; each such use is listed in the order
of the program, up to the first one that leaves defined behaviour.
-/

namespace Neb2Amqp

open CLib

inductive LeftUse
  | division (dividend left : Int32)
  | chunkCount (temp : Int32)
  | xalloca (size : Int32)
  | snprintf (size : Int32)

namespace LeftUse

/-- `left` is positive, and a number of chunks is not negative. -/
def Safe : LeftUse → Prop
  | .division _ left => 0 < left
  | .chunkCount temp => 0 ≤ temp
  | .xalloca size => 0 < size
  | .snprintf size => 0 < size

/-- What the code does from here on is not defined. -/
def Faults : LeftUse → Prop
  | .division dividend left => left = 0 ∨ (dividend = Int32.minValue ∧ left = -1)
  | .chunkCount _ => False
  | .xalloca size => size < 1
  | .snprintf _ => False

theorem safe_division {dividend left : Int32} : (division dividend left).Safe ↔ 0 < left := .rfl

instance : DecidablePred Safe := fun use => by
  cases use <;> unfold Safe <;> infer_instance

instance : DecidablePred Faults := fun use => by
  cases use <;> unfold Faults <;> infer_instance

theorem Safe.not_faults {use : LeftUse} (h : use.Safe) : ¬ use.Faults := by
  cases use with
  | division dividend left =>
      obtain ⟨hzero, hneg⟩ := ne_of_toInt_pos (pos_iff_toInt_pos.mp h)
      exact not_or.mpr ⟨hzero, fun h => hneg h.2⟩
  | chunkCount temp => exact not_false
  | xalloca size =>
      intro hlt
      have hpos := pos_iff_toInt_pos.mp h
      have hone := lt_one_iff_toInt_lt_one.mp hlt
      omega
  | snprintf size => exact not_false

end LeftUse

/-- The uses the run gets to. -/
def reached : List LeftUse → List LeftUse
  | [] => []
  | use :: uses => if use.Faults then [use] else use :: reached uses

/-- Nothing unsafe is hidden behind a fault, which is unsafe itself. -/
theorem forall_reached_safe_iff {uses : List LeftUse} :
    (∀ use ∈ reached uses, use.Safe) ↔ ∀ use ∈ uses, use.Safe := by
  induction uses with
  | nil => rfl
  | cons use uses ih =>
      rw [reached]
      split
      · rename_i hfaults
        have hunsafe : ¬ use.Safe := fun hsafe => hsafe.not_faults hfaults
        rw [List.forall_mem_singleton, List.forall_mem_cons]
        exact iff_of_false hunsafe fun h => hunsafe h.1
      · rw [List.forall_mem_cons, List.forall_mem_cons, ih]

/-! ## The uses of one check -/

/-- Those of `n2a_nebstruct_service_check_data_update_json`. -/
def updateJsonUses (size : Int32) : List LeftUse := [.xalloca size, .snprintf size]

def splitMessageUses (message : Option CString) (left : Int32) : List LeftUse :=
  let temp := toInt (xstrlen message) / left + 1
  .division (toInt (xstrlen message)) left :: .chunkCount temp ::
    (List.replicate temp.toInt.toNat (updateJsonUses left)).flatten

def splitMessagesUses (c : ServiceCheckData) (left : Int32) : List LeftUse :=
  [.division (toInt (xstrlen c.longOutput)) left, .division (toInt (xstrlen c.output)) left,
    .division (toInt (xstrlen c.perfData)) left] ++
  splitMessageUses c.longOutput left ++ splitMessageUses c.output left ++
  splitMessageUses c.perfData left

/-- Those of `n2a_event_service_check`, and before them the division that finds the
number of messages. -/
def serviceCheckUses (printf : UInt64 → Option CString) (o : Options) (c : ServiceCheckData) :
    List LeftUse :=
  let rest := toInt (textLength c)
  let left := textRoom printf o c
  if c.type = servicecheckProcessed ∧ rest > left then
    .division rest left :: if rest / left + 1 = 1 then [] else splitMessagesUses c left
  else []

/-- The uses of a text's loop, told from the messages it sent. -/
def loopUses (c : ServiceCheckData) (left : Int32) (messages : List Message) (field : TextField) :
    List LeftUse :=
  .division (toInt (xstrlen (c.text field))) left ::
    .chunkCount (toInt (xstrlen (c.text field)) / left + 1) ::
    (messages.filter fun m => m.part = some field).flatMap fun _ => updateJsonUses left

/-! ## The model faults where the list does -/

section
variable {printf : UInt64 → Option CString} {key message : Option CString} {field : TextField}
  {left : Int32} {c : ServiceCheckData}

/-- `x` ends without a fault. -/
def Completes {α : Type} (x : Except Fault α) : Prop := ∃ a, x = .ok a

theorem completes_bind {α β : Type} {x : Except Fault α} {f : α → Except Fault β} :
    Completes (x >>= f) ↔ ∃ a, x = .ok a ∧ Completes (f a) := by
  constructor
  · rintro ⟨b, hb⟩
    obtain ⟨a, ha, hfa⟩ := bind_ok hb
    exact ⟨a, ha, b, hfa⟩
  · rintro ⟨a, ha, b, hb⟩
    exact ⟨b, by rw [ha]; exact hb⟩

theorem intDiv_eq_ok_iff {a b q : Int32} :
    intDiv a b = .ok q ↔ ¬ (LeftUse.division a b).Faults ∧ a / b = q := by
  unfold intDiv LeftUse.Faults
  split <;> simp_all

theorem splitLoop_completes_iff (rounds : Nat) (i : Int32) (jdata : JsonObject) :
    Completes (splitLoop printf key message field left rounds i jdata) ↔
      ∀ use ∈ (List.replicate rounds (updateJsonUses left)).flatten, ¬ use.Faults := by
  induction rounds generalizing i jdata with
  | zero => exact iff_of_true ⟨_, rfl⟩ (by simp)
  | succ rounds ih =>
      rw [splitLoop, completes_bind, List.replicate_succ, List.flatten_cons, List.forall_mem_append]
      have hupdate : (∀ use ∈ updateJsonUses left, ¬ use.Faults) ↔ ¬ left < 1 := by
        simp [updateJsonUses, LeftUse.Faults]
      rw [hupdate]
      unfold n2aNebstructServiceCheckDataUpdateJson
      split
      · rename_i hsize
        simp [hsize]
      · rename_i hsize
        simp only [Except.ok.injEq, exists_eq_left', hsize, not_false_eq_true, true_and]
        rw [completes_bind, ← ih (i + 1)]
        constructor
        · rintro ⟨⟨rest, jdata'⟩, hrest, -⟩
          exact ⟨_, hrest⟩
        · rintro ⟨⟨rest, jdata'⟩, hrest⟩
          exact ⟨_, hrest, _, rfl⟩

theorem splitMessage_completes_iff (jdata : JsonObject) :
    Completes (splitMessage printf key message field left jdata) ↔
      ∀ use ∈ splitMessageUses message left, ¬ use.Faults := by
  rw [splitMessage, completes_bind, splitMessageUses, List.forall_mem_cons, List.forall_mem_cons]
  simp only [intDiv_eq_ok_iff, splitLoop_completes_iff]
  constructor
  · rintro ⟨temp, ⟨hdivision, rfl⟩, hloop⟩
    exact ⟨hdivision, not_false, hloop⟩
  · rintro ⟨hdivision, -, hloop⟩
    exact ⟨_, ⟨hdivision, rfl⟩, hloop⟩

theorem completes_intDiv_bind {α : Type} {a : Int32} {f : Int32 → Except Fault α} :
    Completes (intDiv a left >>= f) ↔
      ¬ (LeftUse.division a left).Faults ∧ Completes (f (a / left)) := by
  simp only [completes_bind, intDiv_eq_ok_iff, and_assoc, exists_and_left, exists_eq_left']

theorem completes_splitMessage_bind {α : Type} {f : List Message × JsonObject → Except Fault α}
    {P : Prop} {jdata : JsonObject} (hf : ∀ r, Completes (f r) ↔ P) :
    Completes (splitMessage printf key message field left jdata >>= f) ↔
      (∀ use ∈ splitMessageUses message left, ¬ use.Faults) ∧ P := by
  rw [completes_bind, ← splitMessage_completes_iff jdata]
  simp only [hf]
  constructor
  · rintro ⟨r, hr, hP⟩
    exact ⟨⟨r, hr⟩, hP⟩
  · rintro ⟨⟨r, hr⟩, hP⟩
    exact ⟨r, hr, hP⟩

theorem splitMessages_completes_iff (jdata : JsonObject) :
    Completes (splitMessages printf key c left jdata) ↔
      ∀ use ∈ splitMessagesUses c left, ¬ use.Faults := by
  rw [splitMessages, completes_intDiv_bind, completes_intDiv_bind, completes_intDiv_bind]
  rw [completes_splitMessage_bind (P := (∀ use ∈ splitMessageUses c.output left, ¬ use.Faults) ∧
    (∀ use ∈ splitMessageUses c.perfData left, ¬ use.Faults) ∧ True)]
  · simp only [splitMessagesUses, List.forall_mem_append, List.forall_mem_cons, List.not_mem_nil,
      false_imp_iff, implies_true, and_true, and_assoc]
  · intro longOutput
    apply completes_splitMessage_bind
    intro output
    apply completes_splitMessage_bind
    intro perfData
    exact iff_of_true ⟨_, rfl⟩ trivial

/-- A check is sent to its end exactly if no use faults. -/
theorem serviceCheckMessages_completes_iff (o : Options) (realloc : Nat → Bool) :
    Completes (serviceCheckMessages printf o realloc c) ↔
      ∀ use ∈ serviceCheckUses printf o c, ¬ use.Faults := by
  unfold serviceCheckMessages serviceCheckUses
  by_cases hprocessed : c.type = servicecheckProcessed
  · by_cases hseveral : toInt (textLength c) > textRoom printf o c
    · simp only [if_pos hprocessed, toJson_several hseveral, if_pos (And.intro hprocessed hseveral),
        List.forall_mem_cons, bind_assoc]
      rw [completes_intDiv_bind]
      refine and_congr_right fun _ => ?_
      by_cases hone : toInt (textLength c) / textRoom printf o c + 1 = 1
      · rw [if_pos hone]
        exact iff_of_true ⟨_, if_pos hone⟩ (by simp)
      · rw [if_neg hone, ← splitMessages_completes_iff (serviceCheckBase o c)]
        exact iff_of_eq (congrArg Completes (if_neg hone))
    · simp only [if_pos hprocessed, toJson_single hseveral, if_neg fun h => hseveral (And.right h)]
      exact iff_of_true ⟨_, rfl⟩ (by simp)
  · simp only [if_neg hprocessed, if_neg fun h => hprocessed (And.left h)]
    exact iff_of_true ⟨_, rfl⟩ (by simp)

theorem splitLoop_length {rounds : Nat} {i : Int32} {jdata jdata' : JsonObject}
    {messages : List Message}
    (h : splitLoop printf key message field left rounds i jdata = .ok (messages, jdata')) :
    messages.length = rounds ∧ ∀ m ∈ messages, m.part = some field := by
  induction rounds generalizing i jdata messages with
  | zero =>
      cases h
      exact ⟨rfl, fun m hm => absurd hm List.not_mem_nil⟩
  | succ rounds ih =>
      rw [splitLoop] at h
      obtain ⟨updated, -, h⟩ := bind_ok h
      obtain ⟨⟨rest, last⟩, hrest, h⟩ := bind_ok h
      cases h
      obtain ⟨hlength, hparts⟩ := ih hrest
      exact ⟨congrArg Nat.succ hlength, List.forall_mem_cons.mpr ⟨rfl, hparts⟩⟩

theorem splitMessage_uses {jdata jdata' : JsonObject} {messages : List Message}
    (h : splitMessage printf key message field left jdata = .ok (messages, jdata')) :
    (∀ m ∈ messages, m.part = some field) ∧
    splitMessageUses message left = .division (toInt (xstrlen message)) left ::
      .chunkCount (toInt (xstrlen message) / left + 1) ::
      messages.flatMap fun _ => updateJsonUses left := by
  obtain ⟨temp, hdiv, hloop⟩ := bind_ok h
  obtain ⟨hlength, hparts⟩ := splitLoop_length hloop
  obtain ⟨-, rfl⟩ := intDiv_eq_ok_iff.mp hdiv
  refine ⟨hparts, ?_⟩
  rw [splitMessageUses, ← hlength, List.flatMap_def, List.map_const']

/-- In a split check that is sent to its end, every use in a loop is one of a message it sent, and
there are as many messages as chunks were counted. -/
theorem splitMessages_uses {jdata : JsonObject} {messages : List Message}
    (h : splitMessages printf key c left jdata = .ok messages) :
    splitMessagesUses c left =
      [.division (toInt (xstrlen c.longOutput)) left, .division (toInt (xstrlen c.output)) left,
        .division (toInt (xstrlen c.perfData)) left] ++
      textFields.flatMap (loopUses c left messages) := by
  obtain ⟨_, -, h⟩ := bind_ok h
  obtain ⟨_, -, h⟩ := bind_ok h
  obtain ⟨_, -, h⟩ := bind_ok h
  obtain ⟨⟨longOutput, jdata₁⟩, hlong, h⟩ := bind_ok h
  obtain ⟨⟨output, jdata₂⟩, houtput, h⟩ := bind_ok h
  obtain ⟨⟨perfData, jdata₃⟩, hperf, h⟩ := bind_ok h
  cases h
  obtain ⟨hlongParts, hlongUses⟩ := splitMessage_uses hlong
  obtain ⟨houtputParts, houtputUses⟩ := splitMessage_uses houtput
  obtain ⟨hperfParts, hperfUses⟩ := splitMessage_uses hperf
  have hall : ∀ {sent : List Message} {part : TextField}, (∀ m ∈ sent, m.part = some part) →
      ∀ other, sent.filter (fun m => m.part = some other) = if other = part then sent else [] := by
    intro sent part hparts other
    split
    · rename_i heq
      subst heq
      exact List.filter_eq_self.mpr fun m hm => decide_eq_true (hparts m hm)
    · rename_i hne
      exact List.filter_eq_nil_iff.mpr fun m hm hpart => hne
        (Option.some.inj ((of_decide_eq_true hpart).symm.trans (hparts m hm)))
  simp only [textFields, List.flatMap_cons, List.flatMap_nil, loopUses, List.filter_append,
    hall hlongParts, hall houtputParts, hall hperfParts]
  rw [splitMessagesUses, hlongUses, houtputUses, hperfUses]
  simp [ServiceCheckData.text]
variable (o : Options) (realloc : Nat → Bool) in
theorem serviceCheckMessages_uses {messages : List Message}
    (hprocessed : c.type = servicecheckProcessed)
    (hseveral : toInt (textLength c) > textRoom printf o c)
    (hsplit : toInt (textLength c) / textRoom printf o c + 1 ≠ 1)
    (h : serviceCheckMessages printf o realloc c = .ok messages) :
    serviceCheckUses printf o c =
      .division (toInt (textLength c)) (textRoom printf o c) ::
        ([.division (toInt (xstrlen c.longOutput)) (textRoom printf o c),
          .division (toInt (xstrlen c.output)) (textRoom printf o c),
          .division (toInt (xstrlen c.perfData)) (textRoom printf o c)] ++
        textFields.flatMap (loopUses c (textRoom printf o c) messages)) := by
  unfold serviceCheckUses
  simp only [if_pos (And.intro hprocessed hseveral), if_neg hsplit]
  rw [serviceCheckMessages, if_pos hprocessed, toJson_several hseveral, bind_assoc] at h
  obtain ⟨quotient, hdiv, h⟩ := bind_ok h
  obtain ⟨-, rfl⟩ := intDiv_eq_ok_iff.mp hdiv
  have hmessages : splitMessages printf (serviceCheckKey o realloc c) c (textRoom printf o c)
      (serviceCheckBase o c) = .ok messages := (if_neg hsplit).symm.trans h
  exact congrArg _ (splitMessages_uses hmessages)

end

/-! ## When all of them are safe -/

theorem chunkCount_safe_iff {left : Int32} (hleft : 1 ≤ left.toInt) (a : Int32) :
    0 ≤ a / left + 1 ↔
      -(2 * left.toInt) < a.toInt ∧ ¬ (left.toInt = 1 ∧ a.toInt = 2 ^ 31 - 1) := by
  have hlow := neg_le_tdiv_iff (a := a.toInt) (show 0 < left.toInt by omega) (show 0 ≤ 1 by decide)
  have hmax := tdiv_eq_max_iff a.le_toInt a.toInt_lt (show left.toInt ≠ 0 by omega)
  have hzero : (0 : Int32).toInt = 0 := by decide
  rw [Int32.le_iff_toInt_le, hzero, toInt_succ, toInt_div_of_pos hleft]
  split <;> omega

theorem splitMessageUses_safe_iff {message : Option CString} {left : Int32} :
    (∀ use ∈ splitMessageUses message left, use.Safe) ↔
      0 < left ∧ 0 ≤ toInt (xstrlen message) / left + 1 := by
  rw [splitMessageUses, List.forall_mem_cons, List.forall_mem_cons]
  constructor
  · rintro ⟨hleft, hcount, -⟩
    exact ⟨hleft, hcount⟩
  · rintro ⟨hleft, hcount⟩
    refine ⟨hleft, hcount, fun use hmem => ?_⟩
    obtain ⟨uses, huses, hmem⟩ := List.mem_flatten.mp hmem
    rw [List.eq_of_mem_replicate huses] at hmem
    rcases List.mem_pair.mp hmem with rfl | rfl
    · exact hleft
    · exact hleft

theorem splitMessagesUses_safe_iff {c : ServiceCheckData} {left : Int32} :
    (∀ use ∈ splitMessagesUses c left, use.Safe) ↔
      0 < left ∧ ∀ field, 0 ≤ toInt (xstrlen (c.text field)) / left + 1 := by
  have hfields : (∀ field, 0 ≤ toInt (xstrlen (c.text field)) / left + 1) ↔
      0 ≤ toInt (xstrlen c.longOutput) / left + 1 ∧ 0 ≤ toInt (xstrlen c.output) / left + 1 ∧
        0 ≤ toInt (xstrlen c.perfData) / left + 1 := by
    constructor
    · intro hall
      exact ⟨hall .longOutput, hall .output, hall .perfData⟩
    · rintro ⟨hlong, houtput, hperf⟩ (_ | _ | _)
      · exact hlong
      · exact houtput
      · exact hperf
  simp only [splitMessagesUses, List.forall_mem_append, List.forall_mem_cons, List.not_mem_nil,
    false_imp_iff, implies_true, and_true, splitMessageUses_safe_iff, LeftUse.safe_division, hfields]
  constructor
  · rintro ⟨⟨⟨⟨hleft, -⟩, -, hlong⟩, -, houtput⟩, -, hperf⟩
    exact ⟨hleft, hlong, houtput, hperf⟩
  · rintro ⟨hleft, hlong, houtput, hperf⟩
    exact ⟨⟨⟨⟨hleft, hleft, hleft⟩, hleft, hlong⟩, hleft, houtput⟩, hleft, hperf⟩

/-- Every use of `left` is safe exactly if a check that is split finds `left` positive,
no text so long that its length is far below zero as an `int`, and no quotient that
one cannot be added to. -/
theorem serviceCheckUses_safe_iff (printf : UInt64 → Option CString) (o : Options)
    (c : ServiceCheckData) :
    (∀ use ∈ reached (serviceCheckUses printf o c), use.Safe) ↔
      (c.type = servicecheckProcessed → toInt (textLength c) > textRoom printf o c →
        0 < (textRoom printf o c).toInt ∧ ∀ field,
          -(2 * (textRoom printf o c).toInt) < (toInt (xstrlen (c.text field))).toInt ∧
          ¬ ((textRoom printf o c).toInt = 1 ∧
            (toInt (xstrlen (c.text field))).toInt = 2 ^ 31 - 1)) := by
  rw [forall_reached_safe_iff, serviceCheckUses]
  by_cases hsplit : c.type = servicecheckProcessed ∧ toInt (textLength c) > textRoom printf o c
  · obtain ⟨hprocessed, hseveral⟩ := hsplit
    simp only [hprocessed, hseveral, and_self, if_true, true_imp_iff, List.forall_mem_cons,
      LeftUse.safe_division]
    constructor
    · rintro ⟨hleft, huses⟩
      have hpos := pos_iff_toInt_pos.mp hleft
      obtain ⟨nbmsg, hnbmsg, hjson⟩ := toJson_of_several hpos hseveral
      rw [toJson_several hseveral, intDiv_ok hpos] at hjson
      cases hjson
      rw [if_neg hnbmsg, splitMessagesUses_safe_iff] at huses
      exact ⟨hpos, fun field => (chunkCount_safe_iff hpos _).mp (huses.2 field)⟩
    · rintro ⟨hpos, hfields⟩
      have hleft : 0 < textRoom printf o c := pos_iff_toInt_pos.mpr hpos
      refine ⟨hleft, ?_⟩
      split
      · exact fun use hmem => absurd hmem List.not_mem_nil
      · rw [splitMessagesUses_safe_iff]
        exact ⟨hleft, fun field => (chunkCount_safe_iff hpos _).mpr (hfields field)⟩
  · rw [if_neg hsplit]
    have hnone : ∀ use ∈ ([] : List LeftUse), use.Safe := fun use hmem => absurd hmem List.not_mem_nil
    exact iff_of_true hnone fun hprocessed hseveral => absurd ⟨hprocessed, hseveral⟩ hsplit

/-- A base as long as `max_size` leaves 0, which the code divides by. -/
theorem loadCheck_divides_by_zero :
    (∃ use ∈ reached (serviceCheckUses loadPrintf (limitedTo 349) loadCheck), ¬ use.Safe) ∧
    serviceCheckMessages loadPrintf (limitedTo 349) (fun _ => true) loadCheck =
      .error .division := by
  constructor
  · decide +kernel
  · have hroom : textRoom loadPrintf (limitedTo 349) loadCheck = 0 := loadCheck_room 349
    have hseveral : toInt (textLength loadCheck) > textRoom loadPrintf (limitedTo 349) loadCheck := by
      rw [hroom]
      decide
    rw [serviceCheckMessages, if_pos (show loadCheck.type = servicecheckProcessed from rfl),
      toJson_several hseveral, hroom]
    rfl

end Neb2Amqp
