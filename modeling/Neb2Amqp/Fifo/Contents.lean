import Neb2Amqp.Fifo.Representation

/-!
# The queued events

`Carries` says which events a queue holds, whatever addresses their nodes have.
The rules below are all that the rest of the module needs about the queue.
-/

namespace Neb2Amqp

open CLib
open BoundedDeque (roomBehind)

/-- The queue holds exactly these events, front first. -/
def Fifo.Carries (f : Fifo) (q : List Event) : Prop :=
  ∃ nodes, f.Holds nodes ∧ nodes.map (eventAt f.heap) = q.map some

theorem roomBehind_map {α β : Type} (g : α → β) (cap : Nat) (q : List α) :
    roomBehind cap (q.map g) = (roomBehind cap q).map g := by
  unfold roomBehind
  rw [List.length_map]
  split
  · rfl
  · exact List.map_tail.symm

namespace Fifo.Carries

variable {f : Fifo} {q : List Event}

theorem length_le (h : f.Carries q) : q.length ≤ f.maxSize.toNat := by
  obtain ⟨nodes, hnodes, hmap⟩ := h
  have hlen := congrArg List.length hmap
  simp only [List.length_map] at hlen
  exact hlen ▸ hnodes.fits

theorem size (h : f.Carries q) : f.size.toNat = q.length := by
  obtain ⟨nodes, hnodes, hmap⟩ := h
  have hlen := congrArg List.length hmap
  simp only [List.length_map] at hlen
  exact hnodes.size.trans hlen

theorem size_eq_zero_iff (h : f.Carries q) : f.size = 0 ↔ q = [] := by
  rw [← UInt32.toNat_inj, h.size]
  exact List.length_eq_zero_iff

theorem full_iff (h : f.Carries q) :
    (n2aCheckSize f).full = true ↔ ¬ q.length < f.maxSize.toNat := by
  obtain ⟨nodes, hnodes, hmap⟩ := h
  have hlen := congrArg List.length hmap
  simp only [List.length_map] at hlen
  rw [hnodes.full_iff, hlen]

theorem events_eq (h : f.Carries q) : f.events = q := by
  obtain ⟨nodes, hnodes, hmap⟩ := h
  have hread : nodes.filterMap (eventAt f.heap) = (nodes.map (eventAt f.heap)).filterMap id := by
    rw [List.filterMap_map]
    rfl
  rw [Fifo.events, hnodes.nodes_eq, hread, hmap, List.filterMap_map]
  simp

theorem first_eq_none_iff (h : f.Carries q) : f.first = none ↔ q = [] := by
  obtain ⟨nodes, hnodes, hmap⟩ := h
  rw [hnodes.first_eq, List.head?_eq_none_iff, ← List.map_eq_nil_iff (f := eventAt f.heap), hmap,
    List.map_eq_nil_iff]

theorem of_same {g : Fifo} (h : f.Carries q) (hheap : g.heap = f.heap) (hfirst : g.first = f.first)
    (hlast : g.last = f.last) (hsize : g.size = f.size) (hmax : g.maxSize = f.maxSize) :
    g.Carries q := by
  obtain ⟨nodes, hnodes, hmap⟩ := h
  refine ⟨nodes, ⟨?_, ?_, ?_, ?_, ?_⟩, hheap ▸ hmap⟩
  · rw [hheap, hfirst, hlast]
    exact hnodes.linked
  · rw [hfirst]
    exact hnodes.emptied
  · rw [hheap]
    exact hnodes.live
  · rw [hsize]
    exact hnodes.size
  · rw [hmax]
    exact hnodes.fits

end Fifo.Carries

theorem Fifo.created_carries (maxSize : UInt32) (disk : Disk) :
    (created maxSize disk).Carries [] := ⟨[], created_holds maxSize disk, rfl⟩

theorem Fifo.Holds.makeRoom_eventAt {f : Fifo} {q : List Addr} {b : Addr} (h : f.Holds q)
    (hb : b ∈ roomBehind f.maxSize.toNat q ∨ b ∉ q) :
    eventAt (f.makeRoom n2aShift).heap b = eventAt f.heap b := by
  by_cases hroom : q.length < f.maxSize.toNat
  · rw [makeRoom_of_room h hroom, n2aCheckSize_heap]
  · have hfull : (n2aCheckSize f).full = true := h.full_iff.mpr hroom
    have hfree : (n2aShift (n2aCheckSize f)).1 ≠ some b := by
      rw [n2aShift_fst, h.checkSize.first_eq]
      intro hp
      cases q with
      | nil => cases hp
      | cons a l =>
          cases hp
          rcases hb with hb | hb
          · rw [roomBehind, if_neg hroom] at hb
            exact (List.nodup_cons.mp h.nodup).1 hb
          · exact hb List.mem_cons_self
    simp only [makeRoom, hfull, if_true]
    rw [n2aFreeEvent_eventAt hfree, n2aShift_eventAt, n2aCheckSize_heap]

theorem n2aPush_eventAt {f : Fifo} {q : List Addr} {a b : Addr} (h : f.Holds q)
    (hb : b ∈ roomBehind f.maxSize.toNat q ∨ b ∉ q) :
    eventAt (n2aPush f a).2.heap b = eventAt f.heap b :=
  (congrFun (Fifo.linkLast_eventAt _ a) b).trans (h.makeRoom_eventAt hb)

/-- Queuing a new event, as every caller does it. -/
def enqueue (m : Malloc EventNode) (f : Fifo) (ev : Event) : Int32 × Fifo :=
  n2aPush (n2aEventInit m f ev.rk ev.msg).2 (n2aEventInit m f ev.rk ev.msg).1

theorem enqueue_sameFile (m : Malloc EventNode) (f : Fifo) (ev : Event) :
    f.SameFile (enqueue m f ev).2 :=
  (n2aEventInit_sameFile m f ev.rk ev.msg).trans (n2aPush_sameFile _ _)

theorem enqueue_dirty (m : Malloc EventNode) (f : Fifo) (ev : Event) :
    (enqueue m f ev).2.dirty = true := rfl

theorem enqueue_carries {f : Fifo} {q : List Event} (h : f.Carries q)
    (hpos : 0 < f.maxSize.toNat) (m : Malloc EventNode) (ev : Event) :
    (enqueue m f ev).2.Carries (roomBehind f.maxSize.toNat q ++ [ev]) := by
  obtain ⟨nodes, hnodes, hmap⟩ := h
  have hinit := n2aEventInit_holds hnodes m ev.rk ev.msg
  have hnew : (n2aEventInit m f ev.rk ev.msg).1 ∉ nodes :=
    fun hmem => n2aEventInit_fresh (hnodes.live _ hmem) m ev.rk ev.msg rfl
  refine ⟨_, (n2aPush_holds hinit hpos (n2aEventInit_loose m f ev.rk ev.msg) hnew).1, ?_⟩
  have hkept : (roomBehind f.maxSize.toNat nodes).map (eventAt (enqueue m f ev).2.heap) =
      (roomBehind f.maxSize.toNat nodes).map (eventAt f.heap) := by
    apply List.map_congr_left
    intro b hb
    rw [enqueue, n2aPush_eventAt hinit (Or.inl hb),
      n2aEventInit_eventAt (hnodes.live b (mem_of_mem_roomBehind hb))]
  have hadded : eventAt (enqueue m f ev).2.heap (n2aEventInit m f ev.rk ev.msg).1 = some ev := by
    rw [enqueue, n2aPush_eventAt hinit (Or.inr hnew), n2aEventInit_eventAt_self]
  calc
    (roomBehind f.maxSize.toNat nodes ++ [(n2aEventInit m f ev.rk ev.msg).1]).map
        (eventAt (enqueue m f ev).2.heap) =
      (roomBehind f.maxSize.toNat nodes).map (eventAt f.heap) ++ [some ev] := by
        rw [List.map_append, hkept, List.map_singleton, hadded]
    _ = roomBehind f.maxSize.toNat (q.map some) ++ [some ev] := by
        rw [← roomBehind_map, hmap]
    _ = (roomBehind f.maxSize.toNat q ++ [ev]).map some := by
        rw [roomBehind_map, List.map_append, List.map_singleton]

/-- Shifting left room for the node, so that prepending it again evicts nothing. -/
theorem n2aPrepend_shift_holds {f : Fifo} {a : Addr} {l : List Addr} (h : f.Holds (a :: l)) :
    (n2aPrepend (n2aShift f).2 a).2.Holds (a :: l) ∧
      eventAt (n2aPrepend (n2aShift f).2 a).2.heap = eventAt f.heap := by
  have hrest := n2aShift_holds h
  have hloose := n2aShift_loose h.first_eq (h.live a List.mem_cons_self)
  have hal : a ∉ l := (List.nodup_cons.mp h.nodup).1
  have hmax := (n2aShift_sameFile f).maxSize
  have hroom : l.length < (n2aShift f).2.maxSize.toNat := hmax ▸ h.fits
  constructor
  · have hpos : 0 < (n2aShift f).2.maxSize.toNat := Nat.lt_of_le_of_lt (Nat.zero_le _) hroom
    have hback := n2aPrepend_holds hrest hpos (Or.inl hroom) hloose hal
    rwa [BoundedDeque.roomBefore, List.tail_cons, if_pos hroom] at hback
  · apply (Fifo.linkFirst_eventAt _ a).trans
    rw [Fifo.makeRoom_of_room hrest hroom, n2aCheckSize_heap, n2aShift_eventAt]

theorem n2aShift_carries {f : Fifo} {ev : Event} {q : List Event} (h : f.Carries (ev :: q)) :
    ∃ a, (n2aShift f).1 = some a ∧ eventAt (n2aShift f).2.heap a = some ev ∧
      (n2aFreeEvent (n2aShift f).2 (some a)).Carries q ∧
      (n2aPrepend (n2aShift f).2 a).2.Carries (ev :: q) := by
  obtain ⟨nodes, hnodes, hmap⟩ := h
  cases nodes with
  | nil => simp at hmap
  | cons a l =>
      simp only [List.map_cons, List.cons.injEq] at hmap
      obtain ⟨hev, hmap⟩ := hmap
      have hal : a ∉ l := (List.nodup_cons.mp hnodes.nodup).1
      obtain ⟨hback, hsame⟩ := n2aPrepend_shift_holds hnodes
      refine ⟨a, (n2aShift_fst f).trans hnodes.first_eq, ?_, ⟨l, ?_, ?_⟩, a :: l, hback, ?_⟩
      · rw [n2aShift_eventAt, hev]
      · exact n2aFreeEvent_holds (n2aShift_holds hnodes)
          (fun b hb hp => hal (by cases hp; exact hb))
      · rw [← hmap]
        apply List.map_congr_left
        intro b hb
        have hne : some a ≠ some b := fun hp => hal (by cases hp; exact hb)
        rw [n2aFreeEvent_eventAt hne, n2aShift_eventAt]
      · rw [hsame, List.map_cons, List.map_cons, hev, hmap]

theorem n2aShift_of_carries_nil {f : Fifo} (h : f.Carries []) : n2aShift f = (none, f) :=
  n2aShift_of_none (h.first_eq_none_iff.mpr rfl)

/-- A queue holding these events, each pushed in turn. -/
def Fifo.filled (m : Malloc EventNode) (maxSize : UInt32) (disk : Disk) (q : List Event) : Fifo :=
  q.foldl (fun f ev => (enqueue m f ev).2) (created maxSize disk)

theorem foldl_enqueue_carries (m : Malloc EventNode) {f : Fifo} {q more : List Event}
    (h : f.Carries q) (hfit : (q ++ more).length ≤ f.maxSize.toNat) :
    (more.foldl (fun f ev => (enqueue m f ev).2) f).Carries (q ++ more) := by
  induction more generalizing f q with
  | nil => simpa using h
  | cons ev more ih =>
      have hroom : q.length < f.maxSize.toNat := by
        rw [List.length_append, List.length_cons] at hfit
        omega
      have hnext := enqueue_carries h (Nat.lt_of_le_of_lt (Nat.zero_le _) hroom) m ev
      rw [roomBehind, if_pos hroom] at hnext
      have hmax : (enqueue m f ev).2.maxSize = f.maxSize := (enqueue_sameFile m f ev).maxSize
      have hrun := ih hnext (by rw [hmax]; simpa using hfit)
      simpa using hrun

theorem Fifo.filled_carries (m : Malloc EventNode) {maxSize : UInt32} (disk : Disk)
    {q : List Event} (hfit : q.length ≤ maxSize.toNat) :
    (filled m maxSize disk q).Carries q :=
  foldl_enqueue_carries m (created_carries maxSize disk) hfit

end Neb2Amqp
