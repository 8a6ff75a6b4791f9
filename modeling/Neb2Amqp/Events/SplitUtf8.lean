import Neb2Amqp.Events.MessageSize

/-!
# Whether the chunks are UTF-8

Texts are cut at multiples of `left - 1` bytes, whatever stands there. A cut is harmless
in front of a character; inside one it leaves two chunks that are no UTF-8, and a
message whose object cannot be written.
-/

namespace Neb2Amqp

open CLib

/-- All chunks are proper exactly if no cut is made inside a character. -/
theorem proper_chunkAt_iff {buffer : Bytes} (h : Proper buffer) (width rounds : Nat) :
    (∀ k < rounds, Proper (chunkAt width buffer k)) ↔
      ∀ j, 1 ≤ j → j ≤ rounds → j * width < buffer.length →
        ¬ Continuation (buffer.getD (j * width) 0) := by
  induction rounds with
  | zero =>
      refine iff_of_true (fun k hk => absurd hk (Nat.not_lt_zero k)) fun j hpos hj => ?_
      omega
  | succ rounds ih =>
      have hstart : (∀ j, 1 ≤ j → j ≤ rounds → j * width < buffer.length →
          ¬ Continuation (buffer.getD (j * width) 0)) → Proper (buffer.drop (rounds * width)) := by
        intro hcuts
        by_cases hzero : rounds = 0
        · rw [hzero, Nat.zero_mul]
          exact h
        by_cases hend : rounds * width < buffer.length
        · exact h.drop (hcuts rounds (Nat.pos_of_ne_zero hzero) le_rfl hend)
        · rw [List.drop_eq_nil_of_le (Nat.le_of_not_lt hend)]
          exact proper_nil
      have hchunk : Proper (buffer.drop (rounds * width)) →
          (Proper (chunkAt width buffer rounds) ↔ ((rounds + 1) * width < buffer.length →
            ¬ Continuation (buffer.getD ((rounds + 1) * width) 0))) := by
        intro hdrop
        have hnext : (rounds + 1) * width = rounds * width + width := Nat.succ_mul rounds width
        have hget : (buffer.drop (rounds * width)).getD width 0 =
            buffer.getD ((rounds + 1) * width) 0 := by
          rw [hnext, List.getD_eq_getElem?_getD, List.getElem?_drop, ← List.getD_eq_getElem?_getD]
        have hbound : width < (buffer.drop (rounds * width)).length ↔
            (rounds + 1) * width < buffer.length := by
          rw [List.length_drop, hnext]
          omega
        rw [chunkAt, proper_take_iff hdrop, hget, hbound]
      constructor
      · intro hall j hpos hj
        have hcuts := ih.mp fun k hk => hall k (Nat.lt_succ_of_lt hk)
        rcases Nat.lt_or_eq_of_le hj with hlt | rfl
        · exact hcuts j hpos (Nat.le_of_lt_succ hlt)
        · exact (hchunk (hstart hcuts)).mp (hall rounds (Nat.lt_succ_self rounds))
      · intro hcuts k hk
        have hbefore : ∀ j, 1 ≤ j → j ≤ rounds → j * width < buffer.length →
            ¬ Continuation (buffer.getD (j * width) 0) :=
          fun j hpos hj => hcuts j hpos (Nat.le_succ_of_le hj)
        rcases Nat.lt_or_eq_of_le (Nat.le_of_lt_succ hk) with hlt | rfl
        · exact ih.mpr hbefore k hlt
        · exact (hchunk (hstart hbefore)).mpr (hcuts (k + 1) (Nat.succ_pos k) le_rfl)

section
variable {c : ServiceCheckData} {left : Int32} {field : TextField}

theorem nullText_take_proper (n : Nat) : Proper (CString.nullText.bytes.take n) := by
  have hascii : ∀ u ∈ CString.nullText.bytes, ¬ Continuation u := by decide +kernel
  refine (proper_take_iff (by decide) n).mpr fun hlt => hascii _ ?_
  rw [List.getD_eq_getElem _ 0 hlt]
  exact List.getElem_mem hlt

theorem chunks_proper_iff (hleft : 2 ≤ left.toInt)
    (hproper : ∀ text, c.text field = some text → utf8CheckString text = true) :
    (∀ k < rounds c left field, utf8CheckString (chunk c left field k) = true) ↔
      ∀ text, c.text field = some text → ∀ j, 1 ≤ j → j ≤ rounds c left field →
        j * (left.toInt.toNat - 1) < text.strlen →
        ¬ Continuation (text.bytes.getD (j * (left.toInt.toNat - 1)) 0) := by
  cases htext : c.text field with
  | none =>
      refine iff_of_true (fun k hk => ?_) fun text hsome => by cases hsome
      rw [rounds_null hleft htext] at hk
      obtain rfl : k = 0 := by omega
      rw [utf8CheckString_iff, chunk_null htext]
      exact nullText_take_proper _
  | some text =>
      simp only [Option.some.injEq, forall_eq']
      have hcuts := proper_chunkAt_iff (utf8CheckString_iff.mp (hproper text htext))
        (left.toInt.toNat - 1) (rounds c left field)
      refine Iff.trans (forall₂_congr fun k hk => ?_) hcuts
      rw [utf8CheckString_iff, chunk_bytes hleft htext hk]

end

/-- What the builder would enter if the texts fitted. -/
def serviceCheckStrings (o : Options) (c : ServiceCheckData) : List Entry :=
  serviceCheckEntries o c ++ optionEntries o (serviceCheckAdditionals c) none

theorem serviceCheckStrings_text {o : Options} {c : ServiceCheckData}
    (h : ProperEntries (serviceCheckStrings o c)) {field : TextField} {text : CString}
    (htext : c.text field = some text) : utf8CheckString text = true := by
  have hentry : (field.name, some (JsonValue.string text)) ∈ serviceCheckStrings o c := by
    apply List.mem_append_right
    cases field <;> simp [TextField.name, optionEntries, serviceCheckAdditionals, EventOption.item,
      jsonStringNocheck, ← htext, ServiceCheckData.text]
  have hpair : (field.name, JsonValue.string text) ∈ effective (serviceCheckStrings o c) :=
    mem_effective.mpr ⟨hentry, name_proper field⟩
  exact h _ hpair text (List.mem_singleton_self text)

theorem serviceCheckStrings_base {printf : UInt64 → Option CString} (hreals : WritesReals printf)
    {o : Options} {c : ServiceCheckData} (h : ProperEntries (serviceCheckStrings o c)) :
    ∃ text, jsonDumps printf (serviceCheckBase o c) = some text := by
  rw [← Option.isSome_iff_exists, serviceCheckBase_eq]
  apply ProperEntries.dumps hreals
  intro p hp
  apply h p
  rw [serviceCheckStrings, effective_append]
  exact List.mem_append_left _ hp

/-- The same check with an output in French: the cut behind nine bytes is made inside
a character of two. -/
def accentCheck : ServiceCheckData := { loadCheck with output := some (.lit "Charge: élevée 0.125") }

theorem accentCheck_room (maxSize : Int32) :
    textRoom loadPrintf (limitedTo maxSize) accentCheck = maxSize - 349 :=
  loadCheck_room maxSize

theorem accentCheck_splits : Splits loadPrintf (limitedTo 359) accentCheck where
  processed := rfl
  wide := by
    rw [accentCheck_room]
    decide
  several := by
    rw [accentCheck_room]
    decide +kernel

end Neb2Amqp
