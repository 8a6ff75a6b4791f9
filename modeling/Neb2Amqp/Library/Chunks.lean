import Mathlib.Data.List.TakeDrop
import Mathlib.Tactic.Ring

/-!
# Cutting a list into chunks

Chunks of equal width, and when a given number of them covers the list.
-/

namespace CLib

variable {α : Type}

/-- The chunk at position `i`. -/
def chunkAt (width : Nat) (l : List α) (i : Nat) : List α := (l.drop (i * width)).take width

theorem flatten_chunkAt (width : Nat) (l : List α) (count : Nat) :
    ((List.range count).map (chunkAt width l)).flatten = l.take (count * width) := by
  induction count with
  | zero => simp
  | succ count ih =>
      rw [List.range_succ, List.map_append, List.flatten_append, ih]
      rw [List.map_singleton, List.flatten_singleton, chunkAt, ← List.take_add]
      congr 1
      ring

theorem flatten_chunkAt_eq_iff (width : Nat) (l : List α) (count : Nat) :
    ((List.range count).map (chunkAt width l)).flatten = l ↔ l.length ≤ count * width := by
  rw [flatten_chunkAt, List.take_eq_self_iff]

/-- One chunk more than a division by `width + 1` finds covers the list only as
long as quotient and remainder stay small together. -/
theorem length_le_chunks_iff (n width : Nat) :
    n ≤ (n / (width + 1) + 1) * width ↔ n / (width + 1) + n % (width + 1) < width + 1 := by
  have hdiv := Nat.div_add_mod n (width + 1)
  generalize n / (width + 1) = q at hdiv
  generalize n % (width + 1) = r at hdiv
  have hsplit : (width + 1) * q = q * width + q := by ring
  have hcover : (q + 1) * width = q * width + width := by ring
  omega

end CLib
