import Neb2Amqp.Events.ServiceCheck
import Neb2Amqp.Library.Chunks

/-!
# The rounds of a split loop

How often the loop for a text runs, and which part of the text each round takes.
-/

namespace Neb2Amqp

open CLib

/-- How often the loop for a text runs. -/
def rounds (c : ServiceCheckData) (left : Int32) (field : TextField) : Nat :=
  (toInt (xstrlen (c.text field)) / left + 1).toInt.toNat

/-- The chunk that round `k` puts into the object. -/
def chunk (c : ServiceCheckData) (left : Int32) (field : TextField) (k : Nat) : CString :=
  chunkOf (c.text field) left (.ofNat k)

/-! ## `int` arithmetic with a divisor of at least 2 -/

theorem ofNat_toNat_toInt {x : Int32} (h : 0 ≤ x.toInt) : Int32.ofNat x.toInt.toNat = x := by
  apply Int32.toInt_inj.mp
  have hlt := x.toInt_lt
  rw [Int32.toInt_ofNat_of_lt (by omega)]
  omega

theorem intDiv_ok {left : Int32} (hleft : 1 ≤ left.toInt) (a : Int32) :
    intDiv a left = .ok (a / left) := by
  obtain ⟨hzero, hneg⟩ := ne_of_toInt_pos hleft
  exact if_neg (by simp [hzero, hneg])

theorem toInt_quotient_succ {left : Int32} (hleft : 2 ≤ left.toInt) (a : Int32) :
    (a / left + 1).toInt = a.toInt.tdiv left.toInt + 1 := by
  have hlo := a.le_toInt
  have hlt := a.toInt_lt
  have hquot : (a.toInt.tdiv left.toInt).natAbs ≤ 2 ^ 30 := natAbs_tdiv_le (by omega) (by omega)
  rw [toInt_succ, toInt_div_of_pos (by omega), if_neg (by omega)]

section
variable {c : ServiceCheckData} {left : Int32} {field : TextField}

theorem rounds_eq (hleft : 2 ≤ left.toInt) :
    rounds c left field =
      ((toInt (xstrlen (c.text field))).toInt.tdiv left.toInt + 1).toNat := by
  rw [rounds, toInt_quotient_succ hleft]

/-- The loop runs unless the length, as an `int`, is at most `-left`. -/
theorem rounds_pos_iff (hleft : 2 ≤ left.toInt) :
    0 < rounds c left field ↔ -left.toInt < (toInt (xstrlen (c.text field))).toInt := by
  rw [rounds_eq hleft]
  generalize (toInt (xstrlen (c.text field))).toInt = n
  constructor
  · intro hpos
    by_contra hle
    have hquot : n.tdiv left.toInt ≤ (-left.toInt).tdiv left.toInt :=
      Int.tdiv_le_tdiv (by omega) (by omega)
    rw [Int.neg_tdiv, Int.tdiv_self (by omega)] at hquot
    omega
  · intro hlt
    have hquot : 0 ≤ n.tdiv left.toInt := by
      by_cases hn : 0 ≤ n
      · exact Int.tdiv_nonneg hn (by omega)
      · have hzero : (-n).tdiv left.toInt = 0 := Int.tdiv_eq_zero_of_lt (by omega) (by omega)
        rw [Int.neg_tdiv] at hzero
        omega
    omega

theorem toInt_xstrlen {text : CString} (hlen : text.strlen < 2 ^ 31) :
    (toInt (xstrlen (some text))).toInt = text.strlen := by
  have hmin : xstrlen (some text) = text.strlen := by
    have huint : uintMax = 4294967295 := rfl
    simp only [xstrlen, Option.elim]
    omega
  rw [hmin]
  exact Int32.toInt_ofNat_of_lt hlen

theorem rounds_of_lt (hleft : 2 ≤ left.toInt) {text : CString} (htext : c.text field = some text)
    (hlen : text.strlen < 2 ^ 31) :
    rounds c left field = text.strlen / left.toInt.toNat + 1 := by
  rw [rounds_eq hleft, htext, toInt_xstrlen hlen]
  obtain ⟨width, hwidth⟩ : ∃ width : Nat, left.toInt = width := ⟨left.toInt.toNat, by omega⟩
  rw [hwidth, ← Int.ofNat_tdiv, Int.toNat_natCast]
  rfl

theorem rounds_null (hleft : 2 ≤ left.toInt) (htext : c.text field = none) :
    rounds c left field = 1 := by
  rw [rounds_eq hleft, htext]
  have hzero : (toInt (xstrlen none)).toInt = 0 := by decide
  rw [hzero, Int.zero_tdiv]
  rfl

/-- Of a text of 2³¹ bytes or more, one chunk is taken at most. -/
theorem rounds_le_one (hleft : 2 ≤ left.toInt) {text : CString} (htext : c.text field = some text)
    (hlen : 2 ^ 31 ≤ text.strlen) : rounds c left field ≤ 1 := by
  have hneg : (toInt (xstrlen (c.text field))).toInt < 0 := by
    have huint : uintMax = 4294967295 := rfl
    have hlow : 2 ^ 31 ≤ xstrlen (some text) := by
      simp only [xstrlen, Option.elim]
      omega
    have hhigh : xstrlen (some text) ≤ 4294967295 := by
      simp only [xstrlen, Option.elim]
      omega
    rw [htext]
    generalize xstrlen (some text) = n at hlow hhigh
    rw [toInt, Int32.toInt_ofNat', Int.bmod_def]
    simp only [Int32.size]
    omega
  have hquot : (toInt (xstrlen (c.text field))).toInt.tdiv left.toInt ≤ (0 : Int).tdiv left.toInt :=
    Int.tdiv_le_tdiv (by omega) (by omega)
  rw [Int.zero_tdiv] at hquot
  rw [rounds_eq hleft]
  omega

theorem chunk_length_le (k : Nat) :
    (chunk c left field k).bytes.length ≤ left.toInt.toNat - 1 :=
  CString.snprintfS_length_le _ _

theorem toInt_offset (hleft : 1 ≤ left.toInt) {k : Nat}
    (hbound : k * (left.toInt.toNat - 1) < 2 ^ 31) :
    (chunkOffset left (.ofNat k)).toInt = (k * (left.toInt.toNat - 1) : Nat) := by
  have hproduct : chunkOffset left (.ofNat k) = Int32.ofNat (k * (left.toInt.toNat - 1)) := by
    rw [chunkOffset, Int32.ofNat_mul, Int32.ofNat_sub _ _ (by omega), ofNat_toNat_toInt (by omega)]
    rfl
  rw [hproduct, Int32.toInt_ofNat_of_lt hbound]

/-- No round begins behind the text: the quotient counts chunks that are one byte wider. -/
theorem offset_le_strlen (hleft : 2 ≤ left.toInt) {text : CString}
    (htext : c.text field = some text) {k : Nat} (hk : k < rounds c left field) :
    k * (left.toInt.toNat - 1) ≤ text.strlen := by
  by_cases hlen : text.strlen < 2 ^ 31
  · rw [rounds_of_lt hleft htext hlen] at hk
    calc k * (left.toInt.toNat - 1) ≤ k * left.toInt.toNat := Nat.mul_le_mul_left k (Nat.sub_le _ _)
      _ ≤ text.strlen / left.toInt.toNat * left.toInt.toNat :=
        Nat.mul_le_mul_right _ (Nat.lt_succ_iff.mp hk)
      _ ≤ text.strlen := Nat.div_mul_le_self _ _
  · have hone := rounds_le_one hleft htext (Nat.le_of_not_lt hlen)
    have hzero : k = 0 := by omega
    rw [hzero, Nat.zero_mul]
    exact Nat.zero_le _

theorem offset_lt (hleft : 2 ≤ left.toInt) {text : CString} (htext : c.text field = some text)
    {k : Nat} (hk : k < rounds c left field) : k * (left.toInt.toNat - 1) < 2 ^ 31 := by
  by_cases hlen : text.strlen < 2 ^ 31
  · exact Nat.lt_of_le_of_lt (offset_le_strlen hleft htext hk) hlen
  · have hone := rounds_le_one hleft htext (Nat.le_of_not_lt hlen)
    have hzero : k = 0 := by omega
    rw [hzero, Nat.zero_mul]
    decide

/-- The chunks of a text are cut next to each other. -/
theorem chunk_bytes (hleft : 2 ≤ left.toInt) {text : CString} (htext : c.text field = some text)
    {k : Nat} (hk : k < rounds c left field) :
    (chunk c left field k).bytes = chunkAt (left.toInt.toNat - 1) text.bytes k := by
  have hvalue : (chunkOffset left (.ofNat k)).toInt.toNat = k * (left.toInt.toNat - 1) := by
    rw [toInt_offset (by omega) (offset_lt hleft htext hk), Int.toNat_natCast]
  rw [chunk, chunkOf, hvalue, htext]
  rfl

theorem chunk_zero_strlen (hleft : 2 ≤ left.toInt) {text : CString}
    (htext : c.text field = some text) (hlen : text.strlen < 2 ^ 31) :
    (chunk c left field 0).strlen = min (left.toInt.toNat - 1) text.strlen := by
  have hpos : 0 < rounds c left field := by
    rw [rounds_of_lt hleft htext hlen]
    exact Nat.succ_pos _
  have hbytes := chunk_bytes hleft htext hpos
  rw [CString.strlen, hbytes, chunkAt, Nat.zero_mul, List.drop_zero, List.length_take]
  rfl

theorem rounds_of_short (hleft : 2 ≤ left.toInt)
    (hlen : ∀ text, c.text field = some text → text.strlen < 2 ^ 31)
    (hshort : ∀ text, c.text field = some text → text.strlen < left.toInt.toNat) :
    rounds c left field = 1 := by
  cases htext : c.text field with
  | none => exact rounds_null hleft htext
  | some text =>
      rw [rounds_of_lt hleft htext (hlen text htext), Nat.div_eq_of_lt (hshort text htext)]

theorem chunk_null (htext : c.text field = none) :
    (chunk c left field 0).bytes = CString.nullText.bytes.take (left.toInt.toNat - 1) := by
  rw [chunk, chunkOf, htext]
  rfl

end

end Neb2Amqp
