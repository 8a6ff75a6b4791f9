import Mathlib.Algebra.Order.BigOperators.Group.List
import Neb2Amqp.Events.Payload
import Neb2Amqp.Events.Pieces
import Neb2Amqp.Events.SplitText

/-!
# Whether the payloads keep to max_size

`max_size` against the payloads of a check whose base leaves room for a text. A
text costs more than its bytes: there is its key, and escapes lengthen it.
-/

namespace Neb2Amqp

open CLib

/-- The texts of this layer cannot all be written, or they fit in the room left,
counting what they replace in the base. -/
def FitsRoom (printf : UInt64 → Option CString) (base : JsonObject) (left : Nat) (texts : Texts) :
    Prop :=
  (∀ field text, texts field = some text → utf8CheckString text = true) →
    ((held texts).map (entrySize printf)).sum ≤
      left + ((covered base.pairs (held texts)).map (entrySize printf)).sum

section
variable {printf : UInt64 → Option CString} {base : JsonObject} {m : Message} {texts : Texts}
  {text : CString}

theorem writable_iff (hbase : jsonDumps printf base = some text) :
    Writable printf base texts ↔
      ∀ field text, texts field = some text → utf8CheckString text = true := by
  have hdumps : ∀ p ∈ base.pairs, (dumpValue printf p.2).isSome :=
    jsonDumps_isSome_iff.mp (by rw [hbase]; rfl)
  constructor
  · intro hwritable field text htext
    have hmem : (field.name, JsonValue.string text) ∈ overlay base.pairs (held texts) :=
      mem_overlay.mpr (.inl (mem_held.mpr ⟨field, text, htext, rfl⟩))
    rw [← dumpString_isSome]
    exact hwritable _ hmem
  · intro hproper p hp
    rcases mem_overlay.mp hp with htop | ⟨hkept, -⟩
    · obtain ⟨field, text, htext, rfl⟩ := mem_held.mp htop
      exact (dumpString_isSome text).trans (hproper field text htext)
    · exact hdumps p hkept

theorem Shows.withinLimit_iff (h : Shows printf base m texts) (hne : base.pairs ≠ [])
    (hbase : jsonDumps printf base = some text) {left : Nat}
    (hbound : text.strlen + left < uintMax) :
    m.payload.strlen ≤ text.strlen + left ↔ FitsRoom printf base left texts := by
  rw [h.payload_strlen_le_iff hne hbound, writable_iff hbase, FitsRoom]
  refine imp_congr_right fun _ => ?_
  have hsum := sum_overlay base.pairs (held texts) (entrySize printf)
  rw [← jsonDumps_strlen hbase hne] at hsum
  rw [layerSize]
  omega

end

section
variable {printf : UInt64 → Option CString} {o : Options} {c : ServiceCheckData} {text : CString}

theorem textRoom_toInt (hbase : jsonDumps printf (serviceCheckBase o c) = some text)
    (hfits : (text.strlen : Int) ≤ o.maxSize.toInt) :
    (textRoom printf o c).toInt = o.maxSize.toInt - text.strlen := by
  have hlt := o.maxSize.toInt_lt
  have hsize : (toInt (baseSize printf o c)).toInt = text.strlen := by
    rw [baseSize, hbase]
    exact toInt_xstrlen (by omega)
  rw [textRoom, leftOf, toInt_sub_of_bounds (by omega) (by omega), hsize]

theorem Shows.payload_le_maxSize_iff {m : Message} {texts : Texts}
    (h : Shows printf (serviceCheckBase o c) m texts)
    (hbase : jsonDumps printf (serviceCheckBase o c) = some text)
    (hfits : (text.strlen : Int) ≤ o.maxSize.toInt) :
    (m.payload.strlen : Int) ≤ o.maxSize.toInt ↔
      FitsRoom printf (serviceCheckBase o c) (textRoom printf o c).toInt.toNat texts := by
  have hroom := textRoom_toInt hbase hfits
  have hlt := o.maxSize.toInt_lt
  have huint : uintMax = 4294967295 := rfl
  have hbound : text.strlen + (textRoom printf o c).toInt.toNat < uintMax := by omega
  rw [← h.withinLimit_iff (serviceCheckBase_ne_nil o c) hbase hbound]
  omega

end

/-! ## Splitting does not help -/

section
variable {printf : UInt64 → Option CString} {base : JsonObject} {c : ServiceCheckData}
  {left : Int32} {texts : Texts}

variable (printf) in
theorem entrySize_text (field : TextField) {text : CString} (h : utf8CheckString text = true) :
    text.strlen + 14 ≤ entrySize printf (field.name, .string text) := by
  rw [← dumpString_isSome] at h
  obtain ⟨value, hvalue⟩ := Option.isSome_iff_exists.mp h
  have hlength := dumpString_strlen hvalue
  have hkey : 8 ≤ ((dumpString field.name).getD (.ofBytes [])).strlen := by
    cases field <;> decide
  have hcolon : (CString.ofBytes [58, 32]).strlen = 2 := by decide
  have hcomma : comma.strlen = 2 := by decide
  simp only [entrySize, dumpPair, dumpValue, hvalue, Option.map_some, Option.elim,
    CString.strlen_append]
  omega

theorem sum_held (measure : JsonPair → Nat) :
    ((held texts).map measure).sum =
      (textFields.map fun field =>
        (texts field).elim 0 fun text => measure (field.name, .string text)).sum := by
  unfold held
  induction textFields with
  | nil => rfl
  | cons field fields ih => cases htext : texts field <;> simp [htext, ih]

theorem covered_eq_nil (hfree : ∀ field : TextField, field.name ∉ keysOf base.pairs) :
    covered base.pairs (held texts) = [] := by
  apply List.filter_eq_nil_iff.mpr
  intro p hp htop
  obtain ⟨q, hq, hkey⟩ := mem_keysOf.mp (of_decide_eq_true htop)
  obtain ⟨field, text, -, rfl⟩ := mem_held.mp hq
  have hname : p.1 = field.name := hkey.symm
  exact hfree field (hname ▸ List.mem_map_of_mem hp)

theorem layerAt_proper
    (hproper : ∀ field k, k < rounds c left field → utf8CheckString (chunk c left field k) = true)
    {field : TextField} {k : Nat} (hk : k < rounds c left field) (other : TextField) (text : CString)
    (htext : layerAt c left field k other = some text) : utf8CheckString text = true := by
  by_cases hother : other = field
  · subst hother
    rw [layerAt_self] at htext
    cases htext
    exact hproper other k hk
  · rw [layerAt, Texts.set_of_ne hother, layerBefore] at htext
    split at htext
    · unfold lastChunk at htext
      split at htext
      · cases htext
      · cases htext
        exact hproper other _ (by omega)
    · cases htext

theorem full_chunk_overflows (hleft : 2 ≤ left.toInt) {field : TextField} {text : CString}
    (htext : c.text field = some text) (hlen : text.strlen < 2 ^ 31)
    (hlong : left.toInt.toNat - 1 ≤ text.strlen)
    (hproper : utf8CheckString (chunk c left field 0) = true) :
    left.toInt.toNat < ((held (layerAt c left field 0)).map (entrySize printf)).sum := by
  have hchunk := chunk_zero_strlen hleft htext hlen
  have hentry := entrySize_text printf field hproper
  have hmem : (field.name, JsonValue.string (chunk c left field 0)) ∈
      held (layerAt c left field 0) :=
    mem_held.mpr ⟨field, _, layerAt_self field 0, rfl⟩
  have hsum := List.le_sum_of_mem (List.mem_map_of_mem (f := entrySize printf) hmem)
  omega

theorem last_message_holds (hone : ∀ field, rounds c left field = 1) (field : TextField) :
    layerAt c left .perfData 0 field = some (chunk c left field 0) := by
  cases field with
  | perfData => exact layerAt_self .perfData 0
  | longOutput => simp [layerAt, Texts.set_of_ne, layerBefore, TextField.place, lastChunk, hone]
  | output => simp [layerAt, Texts.set_of_ne, layerBefore, TextField.place, lastChunk, hone]

theorem short_texts_overflow (hleft : 2 ≤ left.toInt)
    (hlen : ∀ field text, c.text field = some text → text.strlen < 2 ^ 31)
    (hshort : ∀ field text, c.text field = some text → text.strlen < left.toInt.toNat - 1)
    (hseveral : left.toInt.toNat < textLength c)
    (hproper : ∀ field, utf8CheckString (chunk c left field 0) = true) :
    left.toInt.toNat < ((held (layerAt c left .perfData 0)).map (entrySize printf)).sum := by
  have hone : ∀ field, rounds c left field = 1 := by
    intro field
    apply rounds_of_short hleft (hlen field)
    intro text htext
    have hlt := hshort field text htext
    omega
  have hlength : ∀ field, xstrlen (c.text field) ≤ (chunk c left field 0).strlen := by
    intro field
    cases htext : c.text field with
    | none => exact Nat.zero_le _
    | some text =>
        have hlt := hshort field text htext
        have hmin : xstrlen (some text) ≤ text.strlen := Nat.min_le_left _ _
        rw [chunk_zero_strlen hleft htext (hlen field text htext)]
        omega
  have hlong := hlength .longOutput
  have houtput := hlength .output
  have hperf := hlength .perfData
  have hlongSize := entrySize_text printf .longOutput (hproper .longOutput)
  have houtputSize := entrySize_text printf .output (hproper .output)
  have hperfSize := entrySize_text printf .perfData (hproper .perfData)
  rw [sum_held]
  simp only [textFields, List.map_cons, List.map_nil, List.sum_cons, List.sum_nil,
    last_message_holds hone, Option.elim]
  simp only [ServiceCheckData.text] at hlong houtput hperf
  unfold textLength at hseveral
  omega

variable (printf) in
/-- If all chunks are proper, some message of a split check is too long: either a chunk
takes all the room by itself, or every text goes in one chunk and the last message has
all three. -/
theorem plan_overflows (hleft : 2 ≤ left.toInt)
    (hfree : ∀ field : TextField, field.name ∉ keysOf base.pairs)
    (hlen : ∀ field text, c.text field = some text → text.strlen < 2 ^ 31)
    (hseveral : left.toInt.toNat < textLength c)
    (hproper : ∀ field k, k < rounds c left field → utf8CheckString (chunk c left field k) = true) :
    ∃ layer ∈ plan c left, ¬ FitsRoom printf base left.toInt.toNat layer.2 := by
  have hpos : ∀ field, 0 < rounds c left field := by
    intro field
    cases htext : c.text field with
    | none =>
        rw [rounds_null hleft htext]
        exact Nat.one_pos
    | some text =>
        rw [rounds_of_lt hleft htext (hlen field text htext)]
        exact Nat.succ_pos _
  have hover : ∀ field,
      left.toInt.toNat < ((held (layerAt c left field 0)).map (entrySize printf)).sum →
      ∃ layer ∈ plan c left, ¬ FitsRoom printf base left.toInt.toNat layer.2 := by
    intro field hsum
    refine ⟨(field, layerAt c left field 0), mem_plan.mpr ⟨field, 0, hpos field, rfl⟩, ?_⟩
    intro hfits
    have hle := hfits (layerAt_proper hproper (hpos field))
    simp only [covered_eq_nil hfree, List.map_nil, List.sum_nil] at hle
    omega
  by_cases hfull : ∃ field text, c.text field = some text ∧ left.toInt.toNat - 1 ≤ text.strlen
  · obtain ⟨field, text, htext, hlong⟩ := hfull
    apply hover field
    exact full_chunk_overflows hleft htext (hlen field text htext) hlong
      (hproper field 0 (hpos field))
  · apply hover .perfData
    apply short_texts_overflow hleft hlen _ hseveral fun field => hproper field 0 (hpos field)
    intro field text htext
    by_contra hge
    exact hfull ⟨field, text, htext, Nat.le_of_not_lt hge⟩

end

/-- A check is split because its texts do not fit, and one of the messages is too long
all the same, unless a chunk or the base is no UTF-8. -/
theorem Splits.overLimit {printf : UInt64 → Option CString} {o : Options} {c : ServiceCheckData}
    (h : Splits printf o c) {text : CString}
    (hbase : jsonDumps printf (serviceCheckBase o c) = some text)
    (hfits : (text.strlen : Int) ≤ o.maxSize.toInt)
    (hfree : ∀ field : TextField, field.name ∉ (serviceCheckBase o c).keys)
    (hlen : ∀ field text, c.text field = some text → text.strlen < 2 ^ 31)
    (htotal : textLength c < 2 ^ 31)
    (hproper : ∀ field k, k < rounds c (textRoom printf o c) field →
      utf8CheckString (chunk c (textRoom printf o c) field k) = true) (realloc : Nat → Bool) :
    ∃ messages, serviceCheckMessages printf o realloc c = .ok messages ∧
      ∃ m ∈ messages, o.maxSize.toInt < m.payload.strlen := by
  have htexts : (toInt (textLength c)).toInt = textLength c := Int32.toInt_ofNat_of_lt htotal
  have hseveral := Int32.lt_iff_toInt_lt.mp h.several
  have hwide := h.wide
  obtain ⟨messages, hmessages, hplan⟩ := serviceCheckMessages_follows h realloc
  obtain ⟨layer, hlayer, hnot⟩ :=
    plan_overflows printf hwide hfree hlen (by omega) hproper
  obtain ⟨m, hm, hfollows⟩ := exists_message hplan layer hlayer
  rw [← hfollows.payload_le_maxSize_iff hbase hfits] at hnot
  exact ⟨messages, hmessages, m, hm, Int.not_le.mp hnot⟩

/-- The base of `loadCheck` as text. -/
def loadBase : CString :=
  (jsonDumps loadPrintf (serviceCheckBase (limitedTo 370) loadCheck)).getD (.ofBytes [])

theorem loadCheck_dumps (maxSize : Int32) :
    jsonDumps loadPrintf (serviceCheckBase (limitedTo maxSize) loadCheck) = some loadBase := by
  rw [loadBase, limitedTo, limitedTo, serviceCheckBase_maxSize, serviceCheckBase_maxSize]
  decide +kernel

theorem loadBase_strlen : loadBase.strlen = 349 := by decide +kernel

theorem loadCheck_text_proper (field : TextField) (text : CString)
    (h : loadCheck.text field = some text) : utf8CheckString text = true := by
  cases field <;> cases h <;> decide

end Neb2Amqp
