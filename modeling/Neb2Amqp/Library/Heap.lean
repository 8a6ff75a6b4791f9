import Mathlib.Logic.Function.Basic
import Mathlib.Data.List.Basic

/-!
# A heap of allocated cells

A heap is a finite partial map from addresses to cells. The bound `top` makes
its finiteness part of the data, so a fresh address exists for any allocator. Accesses
through a dangling pointer change nothing.
-/

namespace CLib

abbrev Addr := Nat

structure Heap (α : Type) where
  cell : Addr → Option α
  top : Addr
  unused : ∀ a, top ≤ a → cell a = none

/-- The choice `malloc` makes: some address that no live cell has. -/
structure Malloc (α : Type) where
  choose : Heap α → Addr
  fresh : ∀ h : Heap α, h.cell (choose h) = none

namespace Heap

variable {α : Type}

def empty : Heap α := ⟨fun _ => none, 0, fun _ _ => rfl⟩

def insert (h : Heap α) (a : Addr) (v : α) : Heap α where
  cell := Function.update h.cell a (some v)
  top := max h.top (a + 1)
  unused := by
    intro b hb
    have hne : b ≠ a := Nat.ne_of_gt (Nat.le_trans (Nat.le_max_right ..) hb)
    rw [Function.update_of_ne hne]
    exact h.unused b (Nat.le_trans (Nat.le_max_left ..) hb)

def erase (h : Heap α) (a : Addr) : Heap α where
  cell := Function.update h.cell a none
  top := h.top
  unused := by
    intro b hb
    by_cases hba : b = a
    · subst hba
      exact Function.update_self ..
    · rw [Function.update_of_ne hba]
      exact h.unused b hb

/-- Update the cell a pointer refers to. -/
def modify (h : Heap α) (p : Option Addr) (f : α → α) : Heap α where
  cell b := if p = some b then (h.cell b).map f else h.cell b
  top := h.top
  unused := by
    intro b hb
    simp [h.unused b hb]

@[simp] theorem insert_cell_self (h : Heap α) (a : Addr) (v : α) :
    (h.insert a v).cell a = some v := Function.update_self ..

theorem insert_cell_of_ne (h : Heap α) {a b : Addr} (v : α) (hne : b ≠ a) :
    (h.insert a v).cell b = h.cell b := Function.update_of_ne hne ..

@[simp] theorem erase_cell_self (h : Heap α) (a : Addr) : (h.erase a).cell a = none :=
  Function.update_self ..

theorem erase_cell_of_ne (h : Heap α) {a b : Addr} (hne : b ≠ a) :
    (h.erase a).cell b = h.cell b := Function.update_of_ne hne ..

@[simp] theorem modify_none (h : Heap α) (f : α → α) : h.modify none f = h := by
  cases h
  simp [modify]

@[simp] theorem modify_cell_self (h : Heap α) (a : Addr) (f : α → α) :
    (h.modify (some a) f).cell a = (h.cell a).map f := by
  simp [modify]

theorem modify_cell_of_ne (h : Heap α) {a b : Addr} (f : α → α) (hne : b ≠ a) :
    (h.modify (some a) f).cell b = h.cell b := by
  simp [modify, Ne.symm hne]

theorem modify_bind {β : Type} (h : Heap α) (p : Option Addr) {f : α → α} {g : α → Option β}
    (hg : ∀ v, g (f v) = g v) (b : Addr) : ((h.modify p f).cell b).bind g = (h.cell b).bind g := by
  unfold modify
  cases hc : h.cell b <;> by_cases hp : p = some b <;> simp [hc, hp, hg]

theorem lt_top_of_cell {h : Heap α} {a : Addr} {v : α} (hv : h.cell a = some v) : a < h.top := by
  apply Nat.lt_of_not_le
  intro hge
  rw [h.unused a hge] at hv
  cases hv

/-- The allocator that never reuses an address. -/
def bump : Malloc α := ⟨Heap.top, fun h => h.unused _ (Nat.le_refl _)⟩

end Heap

end CLib
