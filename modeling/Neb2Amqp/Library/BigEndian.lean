import Mathlib.Tactic.Ring
import Neb2Amqp.Library.CString

/-!
# Numbers in network byte order

A number in a fixed count of bytes, the most significant one first. What does not fit
into the bytes is lost.
-/

namespace CLib

def bigEndian : Nat → Nat → Bytes
  | 0, _ => []
  | width + 1, n => .ofNat (n / 256 ^ width) :: bigEndian width n

/-- The number that some bytes stand for, read from `start` on. -/
def bigEndianFrom (start : Nat) (b : Bytes) : Nat := b.foldl (fun value u => value * 256 + u.toNat) start

def bigEndianValue (b : Bytes) : Nat := bigEndianFrom 0 b

@[simp] theorem bigEndian_length (width n : Nat) : (bigEndian width n).length = width := by
  induction width with
  | zero => rfl
  | succ width ih => rw [bigEndian, List.length_cons, ih]

theorem bigEndianFrom_eq (start : Nat) (b : Bytes) :
    bigEndianFrom start b = start * 256 ^ b.length + bigEndianValue b := by
  induction b generalizing start with
  | nil => simp [bigEndianFrom, bigEndianValue]
  | cons u b ih =>
      have hstart : bigEndianFrom start (u :: b) = bigEndianFrom (start * 256 + u.toNat) b := rfl
      have hzero : bigEndianValue (u :: b) = bigEndianFrom (0 * 256 + u.toNat) b := rfl
      rw [hstart, hzero, ih, ih (0 * 256 + u.toNat), List.length_cons, Nat.pow_succ]
      ring

theorem bigEndianValue_cons (u : UInt8) (b : Bytes) :
    bigEndianValue (u :: b) = u.toNat * 256 ^ b.length + bigEndianValue b := by
  have hhead : bigEndianValue (u :: b) = bigEndianFrom (0 * 256 + u.toNat) b := rfl
  rw [hhead, bigEndianFrom_eq, Nat.zero_mul, Nat.zero_add]

theorem bigEndianValue_bigEndian (width n : Nat) :
    bigEndianValue (bigEndian width n) = n % 256 ^ width := by
  induction width with
  | zero => simp [bigEndian, bigEndianValue, bigEndianFrom, Nat.mod_one]
  | succ width ih =>
      have hdigit : (UInt8.ofNat (n / 256 ^ width)).toNat = n / 256 ^ width % 256 := rfl
      have hsplit : n % 256 ^ (width + 1) = n % 256 ^ width + 256 ^ width * (n / 256 ^ width % 256) := by
        rw [Nat.pow_succ, Nat.mod_mul]
      rw [bigEndian, bigEndianValue_cons, ih, bigEndian_length, hdigit, hsplit]
      ring

theorem bigEndianValue_of_lt {width n : Nat} (h : n < 256 ^ width) :
    bigEndianValue (bigEndian width n) = n := by
  rw [bigEndianValue_bigEndian, Nat.mod_eq_of_lt h]

theorem bigEndian_mod (width n : Nat) : bigEndian width (n % 256 ^ width) = bigEndian width n := by
  induction width generalizing n with
  | zero => rfl
  | succ width ih =>
      have hdigit : n % 256 ^ (width + 1) / 256 ^ width = n / 256 ^ width % 256 := by
        rw [Nat.pow_succ, Nat.mod_mul_right_div_self]
      have hbyte : UInt8.ofNat (n / 256 ^ width % 256) = UInt8.ofNat (n / 256 ^ width) := by
        apply UInt8.toNat.inj
        simp
      have hrest : bigEndian width (n % 256 ^ (width + 1)) = bigEndian width n := by
        rw [← ih (n % 256 ^ (width + 1)), Nat.mod_mod_of_dvd n ⟨256, Nat.pow_succ 256 width⟩, ih]
      rw [bigEndian, bigEndian, hdigit, hbyte, hrest]

end CLib
