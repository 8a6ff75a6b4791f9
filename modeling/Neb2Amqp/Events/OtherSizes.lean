import Neb2Amqp.Events.MessageSize
import Neb2Amqp.Events.OtherEvents

/-!
# Whether the other payloads keep to max_size

A host check measures its object before the texts are added; an acknowledgement and a
downtime measure the comment alone. Neither counts what a text costs besides its bytes.
-/

namespace Neb2Amqp

open CLib

def HostCheckData.text (c : HostCheckData) : TextField → Option CString
  | .longOutput => c.longOutput
  | .output => c.output
  | .perfData => c.perfData

/-- What is left of a comment: one longer than `max_size` becomes the empty text. -/
def commentText (o : Options) (comment : Option CString) : Option CString :=
  if exceeds (xstrlen comment) o.maxSize then some (.ofBytes []) else comment

/-- An option table without the comment. -/
def withoutComment (options : List (CString × EventOption)) : List (CString × EventOption) :=
  options.filter fun option => option.1 ≠ TextField.output.name

namespace OtherEvent

variable (o : Options) (refRealloc : Nat → Bool)

/-- The object without the free texts. -/
def base : OtherEvent → JsonObject
  | .hostCheck c => hostCheckBase o c
  | .acknowledgement c =>
      n2aAddOptionsToEvent o (withoutComment (acknowledgementOptions o refRealloc c)) jsonObject none
  | .downtime c => n2aAddOptionsToEvent o (withoutComment (downtimeOptions o c)) jsonObject none

/-- The free texts that are added when the object without them fits. -/
def texts : OtherEvent → Texts
  | .hostCheck c => c.text
  | .acknowledgement c => Function.update Texts.none .output (commentText o c.commentData)
  | .downtime c => Function.update Texts.none .output (commentText o c.commentData)

end OtherEvent

/-! ## The comment as a layer -/

section
variable {o : Options}

theorem item_truncated (comment : Option CString) :
    (EventOption.truncated comment).item o = jsonStringNocheck (commentText o comment) := by
  rw [EventOption.item, n2aStringToTruncatedJson, commentText]
  split <;> rfl

theorem held_output (text : Option CString) :
    held (Function.update Texts.none .output text) =
      (text.map fun text => (TextField.output.name, JsonValue.string text)).toList := by
  cases text <;> rfl

theorem optionEntries_none (options : List (CString × EventOption)) :
    optionEntries o options none = options.map fun option => (option.1, option.2.item o) := by
  simp [optionEntries]

theorem not_mem_effective {options : List (CString × EventOption)} {key : CString}
    (h : key ∉ keysOf options) :
    key ∉ keysOf (effective (options.map fun option => (option.1, option.2.item o))) := by
  intro hkey
  obtain ⟨p, hp, rfl⟩ := mem_keysOf.mp hkey
  obtain ⟨option, hoption, heq⟩ := List.mem_map.mp (mem_effective.mp hp).1
  have hsame : option.1 = p.1 := congrArg Prod.fst heq
  exact h (hsame ▸ List.mem_map_of_mem hoption)

theorem withoutComment_eq {before after : List (CString × EventOption)} (comment : Option CString)
    (hbefore : TextField.output.name ∉ keysOf before)
    (hafter : TextField.output.name ∉ keysOf after) :
    withoutComment (before ++ (TextField.output.name, .truncated comment) :: after) =
      before ++ after := by
  have hkept : ∀ options : List (CString × EventOption),
      TextField.output.name ∉ keysOf options → withoutComment options = options := by
    intro options hfree
    refine List.filter_eq_self.mpr fun option hoption => decide_eq_true fun hname => ?_
    exact hfree (hname ▸ List.mem_map_of_mem hoption)
  have hafter' := hkept after hafter
  have hbefore' := hkept before hbefore
  unfold withoutComment at hafter' hbefore' ⊢
  rw [List.filter_append, List.filter_cons, hbefore', hafter']
  simp

theorem effective_middle (first last : List Entry) (value : Option JsonValue) :
    effective (first ++ (TextField.output.name, value) :: last) =
      effective first ++ (value.map fun value => (TextField.output.name, value)).toList ++
        effective last := by
  have hproper := name_proper .output
  rw [List.append_cons, effective_append, effective_append]
  cases value <;> simp [effective, hproper]

theorem comment_perm {options before after : List (CString × EventOption)}
    {comment : Option CString}
    (hoptions : options = before ++ (TextField.output.name, .truncated comment) :: after)
    (hbefore : TextField.output.name ∉ keysOf before)
    (hafter : TextField.output.name ∉ keysOf after) :
    (n2aAddOptionsToEvent o options jsonObject none).pairs.Perm
      (overlay (n2aAddOptionsToEvent o (withoutComment options) jsonObject none).pairs
        (held (Function.update Texts.none .output (commentText o comment)))) := by
  have hfirst := not_mem_effective (o := o) hbefore
  have hlast := not_mem_effective (o := o) hafter
  rw [hoptions, withoutComment_eq comment hbefore hafter, n2aAddOptionsToEvent_eq,
    n2aAddOptionsToEvent_eq, held_output]
  simp only [optionEntries_none, List.map_append, List.map_cons, item_truncated]
  generalize before.map (fun option => (option.1, option.2.item o)) = first at *
  generalize after.map (fun option => (option.1, option.2.item o)) = last at *
  have hall := enterAll_jsonObject_perm
    (first ++ (TextField.output.name, jsonStringNocheck (commentText o comment)) :: last)
  have hbase := enterAll_jsonObject_perm (first ++ last)
  rw [effective_middle] at hall
  rw [effective_append] at hbase
  cases htext : commentText o comment with
  | none =>
      rw [htext] at hall
      simp only [jsonStringNocheck, Option.map_none, Option.toList_none, List.append_nil] at hall ⊢
      rw [overlay_nil]
      exact hall.trans hbase.symm
  | some text =>
      rw [htext] at hall
      simp only [jsonStringNocheck, Option.map_some, Option.toList_some, List.append_assoc,
        List.singleton_append] at hall ⊢
      have hfree : ∀ p ∈ (enterAll jsonObject (first ++ last)).pairs,
          p.1 ∉ keysOf [(TextField.output.name, JsonValue.string text)] := by
        intro p hp hkey
        have hname : p.1 = TextField.output.name := List.mem_singleton.mp hkey
        have hmem := mem_keysOf_lasts.mp (List.mem_map_of_mem (hbase.mem_iff.mp hp))
        rw [hname, keysOf, List.map_append, List.mem_append] at hmem
        exact hmem.elim hfirst hlast
      have hrest : (enterAll jsonObject (first ++ last)).pairs.filter (fun p =>
          p.1 ∉ keysOf [(TextField.output.name, JsonValue.string text)]) =
          (enterAll jsonObject (first ++ last)).pairs :=
        List.filter_eq_self.mpr fun p hp => decide_eq_true (hfree p hp)
      have hmiddle := lasts_middle_perm (p := (TextField.output.name, JsonValue.string text))
        hfirst hlast
      rw [overlay, hrest]
      exact (hall.trans hmiddle).trans (hbase.symm.cons _)

end

/-! ## The buffers -/

section
variable {printf : UInt64 → Option CString} {o : Options} {refRealloc : Nat → Bool}
  {e : OtherEvent} {text : CString}

theorem OtherEvent.base_ne_nil (o : Options) (refRealloc : Nat → Bool) (e : OtherEvent) :
    (e.base o refRealloc).pairs ≠ [] := by
  cases e with
  | hostCheck c => exact hostCheckBase_ne_nil o c
  | acknowledgement c =>
      have hevent : (CString.lit "event_type", some (JsonValue.string (.lit "ack"))) ∈
          optionEntries o (withoutComment (acknowledgementOptions o refRealloc c)) none := by
        rw [optionEntries_none]
        exact List.mem_map.mpr ⟨_, List.mem_filter.mpr ⟨.tail _ (.tail _ (.head _)), by decide⟩, rfl⟩
      rw [base, n2aAddOptionsToEvent_eq]
      exact enterAll_ne_nil hevent (by decide)
  | downtime c =>
      have hevent : (CString.lit "event_type", some (JsonValue.string (.lit "downtime"))) ∈
          optionEntries o (withoutComment (downtimeOptions o c)) none := by
        rw [optionEntries_none]
        exact List.mem_map.mpr ⟨_, List.mem_filter.mpr ⟨.tail _ (.tail _ (.head _)), by decide⟩, rfl⟩
      rw [base, n2aAddOptionsToEvent_eq]
      exact enterAll_ne_nil hevent (by decide)

/-- If the base of a host check fits, its texts are not filtered. -/
theorem hostCheckCmp_of_fits {c : HostCheckData}
    (hbase : jsonDumps printf (hostCheckBase o c) = some text)
    (hfits : (text.strlen : Int) ≤ o.maxSize.toInt) : hostCheckCmp printf o c = none := by
  have hlt := o.maxSize.toInt_lt
  have hsize : (toInt (xstrlen (some text))).toInt = text.strlen := toInt_xstrlen (by omega)
  have hnot : ¬ toInt (xstrlen (some text)) > o.maxSize := by
    intro hgt
    have hgt := Int32.lt_iff_toInt_lt.mp hgt
    omega
  rw [hostCheckCmp, hbase]
  exact if_neg hnot

theorem OtherEvent.shows (hbase : jsonDumps printf (e.base o refRealloc) = some text)
    (hfits : (text.strlen : Int) ≤ o.maxSize.toInt) :
    Shows printf (e.base o refRealloc)
      ⟨none, e.buffer printf o refRealloc, e.json printf o refRealloc, none⟩ (e.texts o) := by
  refine ⟨e.buffer_eq printf o refRealloc, ?_⟩
  cases e with
  | hostCheck c =>
      rw [json, hostCheckJson, hostCheckCmp_of_fits hbase hfits]
      exact additionals_perm o (hostCheckBase o c) c.text
  | acknowledgement c =>
      have hsplit : acknowledgementOptions o refRealloc c =
          (acknowledgementOptions o refRealloc c).take 12 ++
            (TextField.output.name, .truncated c.commentData) :: [] := rfl
      refine comment_perm hsplit ?_ List.not_mem_nil
      simp only [acknowledgementOptions, List.take, keysOf, List.map_cons, List.map_nil]
      decide
  | downtime c =>
      have hsplit : downtimeOptions o c = (downtimeOptions o c).take 8 ++
          (TextField.output.name, .truncated c.commentData) :: (downtimeOptions o c).drop 9 := rfl
      refine comment_perm hsplit ?_ ?_
      · simp only [downtimeOptions, List.take, keysOf, List.map_cons, List.map_nil]
        decide
      · simp only [downtimeOptions, List.drop, keysOf, List.map_cons, List.map_nil]
        decide

/-- The payload keeps to `max_size` exactly if its texts cannot all be written or fit in
the room the rest leaves. -/
theorem otherEvent_withinLimit_iff (hbase : jsonDumps printf (e.base o refRealloc) = some text)
    (hfits : (text.strlen : Int) ≤ o.maxSize.toInt) :
    ((e.buffer printf o refRealloc).strlen : Int) ≤ o.maxSize.toInt ↔
      FitsRoom printf (e.base o refRealloc) (o.maxSize.toInt.toNat - text.strlen) (e.texts o) := by
  have hlt := o.maxSize.toInt_lt
  have huint : uintMax = 4294967295 := rfl
  have hbound : text.strlen + (o.maxSize.toInt.toNat - text.strlen) < uintMax := by omega
  have hlimit := (OtherEvent.shows hbase hfits).withinLimit_iff (e.base_ne_nil o refRealloc) hbase
    hbound
  change (e.buffer printf o refRealloc).strlen ≤ _ ↔ _ at hlimit
  rw [← hlimit]
  omega

end

/-- An acknowledgement with a comment of 15 bytes. The rest takes 321 bytes. -/
def loadAcknowledgement : AcknowledgementData where
  type := acknowledgementAdd
  timestamp := 1325376060
  acknowledgementType := serviceAcknowledgement
  hostName := some (.lit "srv1")
  serviceDescription := some (.lit "load")
  state := 2
  authorName := some (.lit "admin")
  commentData := some (.lit "\"known\" problem")

/-- Its JSON without the comment. -/
def acknowledgementBase : CString :=
  (jsonDumps loadPrintf ((OtherEvent.acknowledgement loadAcknowledgement).base (limitedTo 340)
    fun _ => true)).getD (.ofBytes [])

theorem acknowledgementBase_strlen : acknowledgementBase.strlen = 321 := by decide +kernel

theorem otherEvent_withinLimit_iff_acknowledgement :
    (((OtherEvent.acknowledgement loadAcknowledgement).buffer loadPrintf (limitedTo 8192)
      fun _ => true).strlen : Int) ≤ (limitedTo 8192).maxSize.toInt :=
  (otherEvent_withinLimit_iff (show _ = some acknowledgementBase by decide +kernel)
    (by rw [acknowledgementBase_strlen]; decide)).mpr fun _ => by decide +kernel

/-- With `max_size` 340 the comment is sent in 352 bytes, since its key, its quotes and
the escapes in it are not counted. -/
theorem loadAcknowledgement_overLimit :
    jsonDumps loadPrintf ((OtherEvent.acknowledgement loadAcknowledgement).base (limitedTo 340)
      fun _ => true) = some acknowledgementBase ∧
    (acknowledgementBase.strlen : Int) ≤ (limitedTo 340).maxSize.toInt ∧
    (limitedTo 340).maxSize.toInt <
      ((OtherEvent.acknowledgement loadAcknowledgement).buffer loadPrintf (limitedTo 340)
        fun _ => true).strlen := by
  refine ⟨?_, ?_, ?_⟩
  · decide +kernel
  · rw [acknowledgementBase_strlen]
    decide
  · decide +kernel

end Neb2Amqp
