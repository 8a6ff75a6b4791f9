import Mathlib.Algebra.Ring.Nat
import Mathlib.Data.List.Basic

/-!
# Lists around a separator

Two parts with a separator between them, and whether the parts can be told from the
whole.
-/

namespace CLib

variable {α : Type} {sep : α} {left right : List α}

/-- The parts can be told from the whole exactly if neither contains the separator. -/
theorem split_unique_iff :
    (∀ left' right', left' ++ sep :: right' = left ++ sep :: right →
      left' = left ∧ right' = right) ↔ sep ∉ left ∧ sep ∉ right := by
  constructor
  · intro hunique
    constructor
    · intro hmem
      obtain ⟨before, after, rfl⟩ := List.append_of_mem hmem
      have hsame := (hunique before (after ++ sep :: right) (by simp)).1
      have hlength := congrArg List.length hsame
      simp at hlength
    · intro hmem
      obtain ⟨before, after, rfl⟩ := List.append_of_mem hmem
      have hsame := (hunique (left ++ sep :: before) after (by simp)).1
      have hlength := congrArg List.length hsame
      simp at hlength
  · intro hnone left' right' hwhole
    obtain ⟨hleft, -, hright⟩ := (List.append_cons_inj_of_notMem hnone.1 hnone.2).mp hwhole.symm
    exact ⟨hleft.symm, hright.symm⟩

/-! ## Parts with separators between them -/

theorem intercalate_cons (sep first : List α) (parts : List (List α)) :
    sep.intercalate (first :: parts) = first ++ parts.flatMap (sep ++ ·) := by
  induction parts generalizing first with
  | nil => simp
  | cons part parts ih =>
      rw [List.intercalate_cons_cons, ih, List.flatMap_cons]
      simp only [List.append_assoc]

theorem length_intercalate_cons (sep first : List α) (parts : List (List α)) :
    (sep.intercalate (first :: parts)).length =
      first.length + (parts.map fun part => sep.length + part.length).sum := by
  rw [intercalate_cons, List.length_append, List.length_flatMap]
  simp only [List.length_append]

end CLib
