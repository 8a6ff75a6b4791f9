import Mathlib.Algebra.Ring.Int.Defs
import Mathlib.Algebra.Ring.Nat
import Mathlib.Data.List.TakeWhile
import Mathlib.Data.List.Basic

/-!
# NUL-terminated strings and machine integers

`CString` is the text a `char *` points to, up to its terminator. The integer
lemmas relate the wrapping operations of the fixed-width types to the integers
they denote.
-/

namespace CLib

abbrev Bytes := List UInt8

/-- The bytes before the terminating NUL of a string in memory. -/
structure CString where
  bytes : Bytes
  nulFree : (0 : UInt8) ∉ bytes
  deriving DecidableEq

namespace CString

@[ext] theorem ext {s t : CString} (h : s.bytes = t.bytes) : s = t := by
  cases s
  cases t
  cases h
  rfl

/-- What a string function sees of an array holding these bytes and a NUL. -/
def ofBytes (b : Bytes) : CString where
  bytes := b.takeWhile (· != 0)
  nulFree := by
    intro h
    have hne := List.mem_takeWhile_imp h
    simp at hne

/-- A string literal of the program text. -/
def lit (s : String) : CString := ofBytes s.toUTF8.data.toList

def strlen (s : CString) : Nat := s.bytes.length

/-- The string starting `n` bytes further, as pointer arithmetic reaches it. -/
def drop (n : Nat) (s : CString) : CString :=
  ⟨s.bytes.drop n, fun h => s.nulFree (List.mem_of_mem_drop h)⟩

def take (n : Nat) (s : CString) : CString :=
  ⟨s.bytes.take n, fun h => s.nulFree (List.mem_of_mem_take h)⟩

instance : Append CString where
  append s t := ⟨s.bytes ++ t.bytes, fun h => (List.mem_append.mp h).elim s.nulFree t.nulFree⟩

theorem strlen_append (s t : CString) : (s ++ t).strlen = s.strlen + t.strlen :=
  List.length_append

theorem strlen_take (n : Nat) (s : CString) : (s.take n).strlen = min n s.strlen :=
  List.length_take

@[simp] theorem drop_bytes (n : Nat) (s : CString) : (s.drop n).bytes = s.bytes.drop n := rfl

@[simp] theorem take_bytes (n : Nat) (s : CString) : (s.take n).bytes = s.bytes.take n := rfl

/-- The text the GNU C library prints for `%s` when the argument is NULL. -/
def nullText : CString := lit "(null)"

/-- `snprintf (dst, size, "%s", p)`: what `dst` holds afterwards. -/
def snprintfS (size : Nat) (p : Option CString) : CString := (p.getD nullText).take (size - 1)

theorem snprintfS_length_le (size : Nat) (p : Option CString) :
    (snprintfS size p).bytes.length ≤ size - 1 :=
  List.length_take_le _ _

end CString

/-- `UINT_MAX` of a platform with 32-bit `int`. -/
def uintMax : Nat := 4294967295

/-! ## Values of `int` -/

theorem pos_iff_toInt_pos {x : Int32} : 0 < x ↔ 0 < x.toInt := by
  have hzero : (0 : Int32).toInt = 0 := by decide
  rw [Int32.lt_iff_toInt_lt, hzero]

theorem lt_one_iff_toInt_lt_one {x : Int32} : x < 1 ↔ x.toInt < 1 := by
  have hone : (1 : Int32).toInt = 1 := by decide
  rw [Int32.lt_iff_toInt_lt, hone]

theorem ne_of_toInt_pos {x : Int32} (h : 0 < x.toInt) : x ≠ 0 ∧ x ≠ -1 := by
  constructor
  · rintro rfl
    exact absurd h (by decide)
  · rintro rfl
    exact absurd h (by decide)

theorem toInt_sub_of_bounds {a b : Int32} (hlo : -2 ^ 31 ≤ a.toInt - b.toInt)
    (hhi : a.toInt - b.toInt < 2 ^ 31) : (a - b).toInt = a.toInt - b.toInt := by
  rw [Int32.toInt_sub]
  exact Int.bmod_eq_of_le (by omega) (by omega)

theorem toInt_add_of_bounds {a b : Int32} (hlo : -2 ^ 31 ≤ a.toInt + b.toInt)
    (hhi : a.toInt + b.toInt < 2 ^ 31) : (a + b).toInt = a.toInt + b.toInt := by
  rw [Int32.toInt_add]
  exact Int.bmod_eq_of_le (by omega) (by omega)

/-- Converting a 64-bit value to `int` keeps exactly those an `int` can hold. -/
theorem toInt_toInt32_iff (t : Int64) :
    t.toInt32.toInt = t.toInt ↔ -2 ^ 31 ≤ t.toInt ∧ t.toInt < 2 ^ 31 := by
  rw [Int64.toInt_toInt32, Int.bmod_def]
  split <;> omega

theorem toNat_toUInt32 {x : Int32} (h : 0 ≤ x.toInt) : (x.toUInt32.toNat : Int) = x.toInt := by
  rw [Int32.toNat_toUInt32_of_le (Int32.le_iff_toInt_le.mpr h), ← Int32.toNat_toInt]
  omega

theorem toNat_toUInt64 (x : Int32) : (x.toInt64.toUInt64.toNat : Int) = x.toInt % 2 ^ 64 := by
  have hlo := x.le_toInt
  have hlt := x.toInt_lt
  have hsize := x.toInt64.toUInt64.toNat_lt
  have hvalue : (x.toInt64.toUInt64.toNat : Int).bmod (2 ^ 64) = x.toInt := by
    rw [← Int32.toInt_toInt64]
    exact (BitVec.toInt_eq_toNat_bmod _).symm
  rw [Int.bmod_def] at hvalue
  split at hvalue <;> omega

/-! ## Truncating division -/

theorem neg_le_tdiv_iff {a b k : Int} (hb : 0 < b) (hk : 0 ≤ k) :
    -k ≤ a.tdiv b ↔ -((k + 1) * b) < a := by
  have hmul : 1 * b ≤ (k + 1) * b :=
    Int.mul_le_mul_of_nonneg_right (by omega) (Int.le_of_lt hb)
  by_cases ha : 0 ≤ a
  · have hquot : 0 ≤ a.tdiv b := Int.tdiv_nonneg ha (Int.le_of_lt hb)
    omega
  · obtain ⟨n, rfl⟩ : ∃ n, a = -n := ⟨-a, by omega⟩
    have hlt : n / b < k + 1 ↔ n < (k + 1) * b := Int.ediv_lt_iff_lt_mul hb
    rw [Int.neg_tdiv, Int.tdiv_eq_ediv_of_nonneg (by omega)]
    omega

theorem one_le_tdiv_iff {a b : Int} (hb : 0 < b) : 1 ≤ a.tdiv b ↔ b ≤ a := by
  constructor
  · intro hquot
    by_contra hlt
    by_cases ha : 0 ≤ a
    · rw [Int.tdiv_eq_zero_of_lt ha (by omega)] at hquot
      omega
    · have hnonpos : a.tdiv b ≤ (0 : Int).tdiv b := Int.tdiv_le_tdiv hb (by omega)
      rw [Int.zero_tdiv] at hnonpos
      omega
  · intro hle
    exact Int.le_tdiv_of_mul_le hb (by omega)

theorem natAbs_tdiv_le {a b : Int} {n : Nat} (ha : a.natAbs ≤ 2 * n) (hb : 2 ≤ b.natAbs) :
    (a.tdiv b).natAbs ≤ n := by
  have hdiv : a.natAbs / b.natAbs ≤ a.natAbs / 2 := Nat.div_le_div_left hb (by omega)
  rw [Int.natAbs_tdiv]
  change a.natAbs / b.natAbs ≤ n
  omega

/-- Only `1` and `-1` leave the largest value, for two dividends. -/
theorem tdiv_eq_max_iff {a b : Int} (hlo : -2 ^ 31 ≤ a) (hlt : a < 2 ^ 31) (hb : b ≠ 0) :
    a.tdiv b = 2 ^ 31 - 1 ↔ (b = 1 ∧ a = 2 ^ 31 - 1) ∨ (b = -1 ∧ a = -(2 ^ 31 - 1)) := by
  by_cases hone : b = 1
  · subst hone
    rw [Int.tdiv_one]
    omega
  by_cases hneg : b = -1
  · subst hneg
    rw [Int.tdiv_neg, Int.tdiv_one]
    omega
  have hsmall : (a.tdiv b).natAbs ≤ 2 ^ 30 := natAbs_tdiv_le (by omega) (by omega)
  omega

theorem toInt_div {a b : Int32} (h : ¬ (a = Int32.minValue ∧ b = -1)) :
    (a / b).toInt = a.toInt.tdiv b.toInt := by
  by_cases ha : a = Int32.minValue
  · exact Int32.toInt_div_of_ne_right a b fun hb => h ⟨ha, hb⟩
  · exact Int32.toInt_div_of_ne_left a b ha

theorem toInt_div_of_pos {a b : Int32} (hb : 0 < b.toInt) : (a / b).toInt = a.toInt.tdiv b.toInt :=
  toInt_div fun h => (ne_of_toInt_pos hb).2 h.2

theorem toInt_succ (q : Int32) :
    (q + 1).toInt = if q.toInt = 2 ^ 31 - 1 then -2 ^ 31 else q.toInt + 1 := by
  have hone : (1 : Int32).toInt = 1 := by decide
  have hlo := q.le_toInt
  have hlt := q.toInt_lt
  split
  · rename_i hmax
    rw [Int32.toInt_add, hmax, hone]
    decide
  · rw [toInt_add_of_bounds (by omega) (by omega), hone]

end CLib
