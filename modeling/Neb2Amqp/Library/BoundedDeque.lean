import Mathlib.Data.List.Basic

/-!
# A deque of bounded length

Adding at one end of a full deque first drops the element at the other end.
The bound is part of the value, so no operation can exceed it.
-/

namespace CLib

structure BoundedDeque (α : Type) where
  capacity : Nat
  items : List α
  positive : 0 < capacity
  fits : items.length ≤ capacity

namespace BoundedDeque

variable {α : Type}

def empty (capacity : Nat) (positive : 0 < capacity) : BoundedDeque α :=
  ⟨capacity, [], positive, Nat.zero_le _⟩

/-- The elements left once there is room for one more at the back. -/
def roomBehind (capacity : Nat) (items : List α) : List α :=
  if items.length < capacity then items else items.tail

/-- The elements left once there is room for one more at the front. -/
def roomBefore (capacity : Nat) (items : List α) : List α :=
  if items.length < capacity then items else items.dropLast

theorem roomBehind_length {capacity : Nat} {items : List α} (hpos : 0 < capacity)
    (hfit : items.length ≤ capacity) : (roomBehind capacity items).length < capacity := by
  unfold roomBehind
  split
  · assumption
  · rw [List.length_tail]
    omega

theorem roomBefore_length {capacity : Nat} {items : List α} (hpos : 0 < capacity)
    (hfit : items.length ≤ capacity) : (roomBefore capacity items).length < capacity := by
  unfold roomBefore
  split
  · assumption
  · rw [List.length_dropLast]
    omega

def push (d : BoundedDeque α) (x : α) : BoundedDeque α where
  capacity := d.capacity
  items := roomBehind d.capacity d.items ++ [x]
  positive := d.positive
  fits := by
    rw [List.length_append, List.length_singleton]
    exact roomBehind_length d.positive d.fits

def prepend (d : BoundedDeque α) (x : α) : BoundedDeque α where
  capacity := d.capacity
  items := x :: roomBefore d.capacity d.items
  positive := d.positive
  fits := roomBefore_length d.positive d.fits

def shift (d : BoundedDeque α) : Option α × BoundedDeque α :=
  (d.items.head?, ⟨d.capacity, d.items.tail, d.positive,
    Nat.le_trans (by simp) d.fits⟩)

def pop (d : BoundedDeque α) : Option α × BoundedDeque α :=
  (d.items.getLast?, ⟨d.capacity, d.items.dropLast, d.positive,
    Nat.le_trans (by simp) d.fits⟩)

@[simp] theorem push_items (d : BoundedDeque α) (x : α) :
    (d.push x).items = roomBehind d.capacity d.items ++ [x] := rfl

@[simp] theorem prepend_items (d : BoundedDeque α) (x : α) :
    (d.prepend x).items = x :: roomBefore d.capacity d.items := rfl

@[simp] theorem shift_items (d : BoundedDeque α) : d.shift.2.items = d.items.tail := rfl

@[simp] theorem pop_items (d : BoundedDeque α) : d.pop.2.items = d.items.dropLast := rfl

end BoundedDeque

end CLib
