import Neb2Amqp.Library.Linked
import Neb2Amqp.Library.Stdio

/-!
# The event queue of fifo.c

The four queue operations on linked nodes, with both end pointers, the counter
and the `full` flag. The record joins `struct sFifo` with the memory its nodes
live in and the file at its `file_path`.
-/

namespace Neb2Amqp

open CLib

/-- A message together with its routing key. -/
structure Event where
  rk : CString
  msg : CString
  deriving DecidableEq

/-- `struct sEvent`. -/
structure EventNode where
  msg : CString
  rk : CString
  pNext : Option Addr
  pPrev : Option Addr
  deriving DecidableEq

def EventNode.event (n : EventNode) : Event := ⟨n.rk, n.msg⟩

abbrev EventHeap := Heap EventNode

/-! ## Field access through pointers -/

def pNext (h : EventHeap) (a : Addr) : Option Addr := (h.cell a).bind (·.pNext)

def pPrev (h : EventHeap) (a : Addr) : Option Addr := (h.cell a).bind (·.pPrev)

def eventAt (h : EventHeap) (a : Addr) : Option Event := (h.cell a).bind fun n => some n.event

def setNext (h : EventHeap) (p q : Option Addr) : EventHeap :=
  h.modify p fun n => { n with pNext := q }

def setPrev (h : EventHeap) (p q : Option Addr) : EventHeap :=
  h.modify p fun n => { n with pPrev := q }

/-- The address belongs to an event that was allocated and not yet freed. -/
def Live (h : EventHeap) (a : Addr) : Prop := (eventAt h a).isSome

theorem pNext_setNext_self {h : EventHeap} {a : Addr} (q : Option Addr) (ha : Live h a) :
    pNext (setNext h (some a) q) a = q := by
  obtain ⟨e, he⟩ := Option.isSome_iff_exists.mp ha
  obtain ⟨n, hn, -⟩ := Option.bind_eq_some_iff.mp he
  simp [pNext, setNext, hn]

theorem pPrev_setPrev_self {h : EventHeap} {a : Addr} (q : Option Addr) (ha : Live h a) :
    pPrev (setPrev h (some a) q) a = q := by
  obtain ⟨e, he⟩ := Option.isSome_iff_exists.mp ha
  obtain ⟨n, hn, -⟩ := Option.bind_eq_some_iff.mp he
  simp [pPrev, setPrev, hn]

theorem pNext_setNext_of_ne {h : EventHeap} {a b : Addr} (q : Option Addr) (hne : b ≠ a) :
    pNext (setNext h (some a) q) b = pNext h b := by
  rw [pNext, setNext, Heap.modify_cell_of_ne _ _ hne, pNext]

theorem pPrev_setPrev_of_ne {h : EventHeap} {a b : Addr} (q : Option Addr) (hne : b ≠ a) :
    pPrev (setPrev h (some a) q) b = pPrev h b := by
  rw [pPrev, setPrev, Heap.modify_cell_of_ne _ _ hne, pPrev]

@[simp] theorem pPrev_setNext (h : EventHeap) (p q : Option Addr) (b : Addr) :
    pPrev (setNext h p q) b = pPrev h b := by
  unfold pPrev setNext
  exact h.modify_bind p (by intro n; rfl) b

@[simp] theorem pNext_setPrev (h : EventHeap) (p q : Option Addr) (b : Addr) :
    pNext (setPrev h p q) b = pNext h b := by
  unfold pNext setPrev
  exact h.modify_bind p (by intro n; rfl) b

@[simp] theorem eventAt_setNext (h : EventHeap) (p q : Option Addr) (b : Addr) :
    eventAt (setNext h p q) b = eventAt h b := by
  unfold eventAt setNext
  exact h.modify_bind p (by intro n; rfl) b

@[simp] theorem eventAt_setPrev (h : EventHeap) (p q : Option Addr) (b : Addr) :
    eventAt (setPrev h p q) b = eventAt h b := by
  unfold eventAt setPrev
  exact h.modify_bind p (by intro n; rfl) b

@[simp] theorem live_setNext (h : EventHeap) (p q : Option Addr) (b : Addr) :
    Live (setNext h p q) b ↔ Live h b := by
  simp [Live]

@[simp] theorem live_setPrev (h : EventHeap) (p q : Option Addr) (b : Addr) :
    Live (setPrev h p q) b ↔ Live h b := by
  simp [Live]

theorem Live.lt_top {h : EventHeap} {a : Addr} (ha : Live h a) : a < h.top := by
  obtain ⟨e, he⟩ := Option.isSome_iff_exists.mp ha
  obtain ⟨n, hn, -⟩ := Option.bind_eq_some_iff.mp he
  exact Heap.lt_top_of_cell hn

/-- `struct sFifo`; the path itself never changes and is left out. -/
structure Fifo where
  heap : EventHeap
  first : Option Addr
  last : Option Addr
  size : UInt32
  maxSize : UInt32
  pFile : Option Stream
  disk : Disk
  fileLock : Bool
  dirty : Bool
  full : Bool

/-- The fields `n2a_fifo_init` sets before it loads the file. -/
def Fifo.created (maxSize : UInt32) (disk : Disk) : Fifo :=
  ⟨Heap.empty, none, none, 0, maxSize, none, disk, false, false, false⟩

/-- The queued events, as a walk from `first` finds them. -/
def Fifo.nodes (f : Fifo) : List Addr := follow (pNext f.heap) f.heap.top f.first

def Fifo.events (f : Fifo) : List Event := f.nodes.filterMap (eventAt f.heap)

/-! ## Source functions -/

/-- `malloc` in `n2a_event_init` is taken to succeed. -/
def n2aEventInitNomalloc (m : Malloc EventNode) (f : Fifo) (rk msg : CString) : Addr × Fifo :=
  let pEvent := m.choose f.heap
  (pEvent, { f with heap := f.heap.insert pEvent ⟨msg, rk, none, none⟩ })

def n2aEventInit (m : Malloc EventNode) (f : Fifo) (rk msg : CString) : Addr × Fifo :=
  n2aEventInitNomalloc m f rk msg

/-- Both texts are released with their node. -/
def n2aFreeEvent (f : Fifo) : Option Addr → Fifo
  | none => f
  | some pEvent => { f with heap := f.heap.erase pEvent }

def n2aCheckSize (f : Fifo) : Fifo :=
  let f := if f.size ≥ f.maxSize ∧ !f.full then { f with full := true } else f
  if f.size < f.maxSize then { f with full := false } else f

def n2aShift (f : Fifo) : Option Addr × Fifo :=
  match f.first with
  | some pEvent =>
      let f :=
        match pNext f.heap pEvent with
        | some b => { f with first := some b, heap := setPrev f.heap (some b) none }
        | none => { f with first := none }
      let heap := setPrev (setNext f.heap (some pEvent) none) (some pEvent) none
      (some pEvent, { f with heap := heap, size := f.size - 1, dirty := true })
  | none => (none, f)

def n2aPop (f : Fifo) : Option Addr × Fifo :=
  match f.last with
  | some pEvent =>
      let f :=
        match pPrev f.heap pEvent with
        | some b => { f with last := some b, heap := setNext f.heap (some b) none }
        | none => { f with last := none }
      let heap := setPrev (setNext f.heap (some pEvent) none) (some pEvent) none
      (some pEvent, { f with heap := heap, size := f.size - 1, dirty := true })
  | none => (none, f)

/-- How `n2a_push` and `n2a_prepend` begin: a full queue first frees the event
that `n2a_shift`, respectively `n2a_pop`, takes off. -/
def Fifo.makeRoom (take : Fifo → Option Addr × Fifo) (f : Fifo) : Fifo :=
  let f := n2aCheckSize f
  if f.full then n2aFreeEvent (take f).2 (take f).1 else f

/-- The pointer updates of `n2a_push`. -/
def Fifo.linkLast (f : Fifo) (pEvent : Addr) : Fifo :=
  match f.first with
  | none => { f with first := some pEvent, last := some pEvent }
  | some _ =>
      let heap := setPrev f.heap (some pEvent) f.last
      { f with heap := setNext heap f.last (some pEvent), last := some pEvent }

/-- The pointer updates of `n2a_prepend`. -/
def Fifo.linkFirst (f : Fifo) (pEvent : Addr) : Fifo :=
  match f.first with
  | none => { f with first := some pEvent, last := some pEvent }
  | some b =>
      let heap := setNext (setPrev f.heap (some pEvent) none) (some pEvent) (some b)
      { f with heap := setPrev heap (some b) (some pEvent), first := some pEvent }

def Fifo.countOne (f : Fifo) : Fifo := { f with size := f.size + 1, dirty := true }

/-- The new size is returned as an `int`. -/
def n2aPush (f : Fifo) (pEvent : Addr) : Int32 × Fifo :=
  let f := ((f.makeRoom n2aShift).linkLast pEvent).countOne
  (f.size.toInt32, f)

def n2aPrepend (f : Fifo) (pEvent : Addr) : Int32 × Fifo :=
  let f := ((f.makeRoom n2aPop).linkFirst pEvent).countOne
  (f.size.toInt32, f)

end Neb2Amqp
