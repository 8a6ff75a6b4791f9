import Neb2Amqp.Events.SplitText

/-!
# Where the chunks of a split text begin

A round of the loop for a text reads from `i * (left - 1)` on, while the number of rounds
comes from a division by `left`.
-/

namespace Neb2Amqp

open CLib

section
variable {c : ServiceCheckData} {left : Int32} {field : TextField} {text : CString}

theorem toInt_toInt_le (n : Nat) : (toInt n).toInt ≤ n := by
  rw [toInt, Int32.toInt_ofNat', Int.bmod_def]
  simp only [Int32.size]
  split <;> omega

theorem rounds_le (hleft : 1 ≤ left.toInt) :
    rounds c left field ≤ xstrlen (c.text field) / left.toInt.toNat + 1 := by
  obtain ⟨width, hwidth⟩ : ∃ width : Nat, left.toInt = width := ⟨left.toInt.toNat, by omega⟩
  have hquot : (toInt (xstrlen (c.text field)) / left).toInt ≤
      (xstrlen (c.text field) / width : Nat) := by
    rw [toInt_div_of_pos (by omega), hwidth, Int.ofNat_tdiv]
    exact Int.tdiv_le_tdiv (by omega) (toInt_toInt_le _)
  rw [rounds, toInt_succ, hwidth, Int.toNat_natCast]
  generalize xstrlen (c.text field) / width = quotient at hquot ⊢
  split <;> omega

theorem round_offset (hleft : 1 ≤ left.toInt) (htext : c.text field = some text) {k : Nat}
    (hk : k < rounds c left field) :
    (chunkOffset left (.ofNat k)).toInt = k * (left.toInt - 1) ∧
      k * (left.toInt - 1) ≤ text.strlen := by
  have hwidth : ((left.toInt.toNat - 1 : Nat) : Int) = left.toInt - 1 := by omega
  by_cases hone : left.toInt = 1
  · -- chunks without a byte, all from the beginning
    have hzero : k * (left.toInt.toNat - 1) = 0 := by
      rw [hone]
      exact Nat.mul_zero k
    have hvalue := toInt_offset hleft (k := k) (by omega)
    rw [← hwidth, ← Int.natCast_mul, hvalue]
    exact ⟨rfl, by omega⟩
  · have hwide : 2 ≤ left.toInt := by omega
    have hvalue := toInt_offset hleft (offset_lt hwide htext hk)
    have hle := offset_le_strlen hwide htext hk
    rw [← hwidth, ← Int.natCast_mul, hvalue]
    exact ⟨rfl, by omega⟩

end

/-- The loop for a text that is not NULL reads every chunk from a place in the text, its
NUL included, and stores at most `left - 1` bytes of it. -/
theorem splitMessage_inside (printf : UInt64 → Option CString) (key : Option CString)
    {c : ServiceCheckData} {left : Int32} {field : TextField} {text : CString}
    (hleft : 1 ≤ left.toInt) (htext : c.text field = some text) (jdata : JsonObject) :
    ∃ messages jdata',
      splitMessage printf key (c.text field) field left jdata = .ok (messages, jdata') ∧
      ∀ i m, messages[i]? = some m →
        i < xstrlen (some text) / left.toInt.toNat + 1 ∧
        (chunkOffset left (.ofNat i)).toInt = i * (left.toInt - 1) ∧
        i * (left.toInt - 1) ≤ text.strlen ∧
        ∃ stored, jsonObjectGet m.jdata field.name = some (.string stored) ∧
          stored = chunkOf (some text) left (.ofNat i) ∧ stored.strlen ≤ left.toInt - 1 := by
  have hstart : jdata.pairs.Perm (overlay jdata.pairs (held .none)) := by
    rw [held_none, overlay_nil]
  obtain ⟨messages, jdata', hloop, hmessages, -⟩ :=
    splitLoop_follows printf key hleft field (rounds c left field) 0 hstart
  refine ⟨messages, jdata', ?_, ?_⟩
  · rw [splitMessage, intDiv_ok hleft]
    exact hloop
  · intro i m hm
    obtain ⟨hlength, hfollows⟩ := List.forall₂_iff_get.mp hmessages
    obtain ⟨hi, rfl⟩ := List.getElem?_eq_some_iff.mp hm
    have hk : i < rounds c left field := by simpa [hlength] using hi
    obtain ⟨hvalue, hle⟩ := round_offset hleft htext hk
    have hown : jsonObjectGet (messages.get ⟨i, hi⟩).jdata field.name =
        some (.string (chunk c left field i)) :=
      (hfollows i hi (by simpa using hk)).get_some (by simp)
    have hcount : rounds c left field ≤ xstrlen (c.text field) / left.toInt.toNat + 1 :=
      rounds_le hleft
    rw [htext] at hcount
    refine ⟨by omega, hvalue, hle, _, hown, by rw [chunk, htext], ?_⟩
    have hshort : (chunk c left field i).strlen ≤ left.toInt.toNat - 1 := chunk_length_le i
    omega

/-- The chunks of 9 bytes of a text of 19. -/
theorem splitMessage_inside_load :
    ∃ messages jdata',
      splitMessage loadPrintf (some (.lit "srv1")) loadCheck.output .output 10 jsonObject =
        .ok (messages, jdata') ∧
      ∀ (i : Nat) m, messages[i]? = some m → (i : Int) * 9 ≤ 19 ∧
        ∃ stored, jsonObjectGet m.jdata (.lit "output") = some (.string stored) ∧
          stored.strlen ≤ 9 := by
  have hleft : 1 ≤ (10 : Int32).toInt := by decide
  have htext : loadCheck.text .output = some (.lit "load average: 0.125") := rfl
  obtain ⟨messages, jdata', hsplit, hrounds⟩ :=
    splitMessage_inside loadPrintf (some (.lit "srv1")) hleft htext jsonObject
  refine ⟨messages, jdata', hsplit, fun i m hm => ?_⟩
  obtain ⟨-, -, hle, stored, hstored, -, hshort⟩ := hrounds i m hm
  have hlength : (CString.lit "load average: 0.125").strlen = 19 := by decide
  have hwidth : (10 : Int32).toInt - 1 = 9 := by decide
  rw [hlength, hwidth] at hle
  rw [hwidth] at hshort
  exact ⟨hle, stored, hstored, by omega⟩

end Neb2Amqp
