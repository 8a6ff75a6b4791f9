import Neb2Amqp.Library.Run
import Neb2Amqp.Fifo.Representation

/-!
# The linked queue against a bounded deque

A joint run drives the linked queue and a bounded deque of the same nodes with
the same calls. They agree after every call exactly as long as no call empties
the queue from one end without the other end pointer being written again.
-/

namespace Neb2Amqp

open CLib

/-- Where a pushed event comes from: made by `n2a_event_init`, or the one the
last `n2a_shift` or `n2a_pop` returned. -/
inductive Source where
  | fresh (rk msg : CString)
  | returned

inductive QueueOp where
  | push (src : Source)
  | prepend (src : Source)
  | shift
  | pop

structure Joint where
  fifo : Fifo
  returned : Option Addr
  deque : BoundedDeque Addr
  result : Option Addr
  expected : Option Addr

namespace Joint

def start (maxSize : UInt32) (hmax : 0 < maxSize.toNat) : Joint :=
  ⟨.created maxSize ⟨none, []⟩, none, .empty maxSize.toNat hmax, none, none⟩

/-- The event a push or prepend is given, and what is then still in hand. -/
def obtain (m : Malloc EventNode) (j : Joint) : Source → Option (Addr × Fifo × Option Addr)
  | .fresh rk msg =>
      let (pEvent, f) := n2aEventInit m j.fifo rk msg
      some (pEvent, f, j.returned)
  | .returned => j.returned.map fun pEvent => (pEvent, j.fifo, none)

def step (m : Malloc EventNode) (j : Joint) : QueueOp → Option Joint
  | .push src =>
      (j.obtain m src).map fun (pEvent, f, r) =>
        ⟨(n2aPush f pEvent).2, r, j.deque.push pEvent, none, none⟩
  | .prepend src =>
      (j.obtain m src).map fun (pEvent, f, r) =>
        ⟨(n2aPrepend f pEvent).2, r, j.deque.prepend pEvent, none, none⟩
  | .shift =>
      let r := n2aShift j.fifo
      some ⟨r.2, r.1, j.deque.shift.2, r.1, j.deque.shift.1⟩
  | .pop =>
      let r := n2aPop j.fifo
      some ⟨r.2, r.1, j.deque.pop.2, r.1, j.deque.pop.1⟩

/-- The linked queue shows the deque from both ends and returned its element. -/
structure Agrees (j : Joint) : Prop where
  forward : Chain (pNext j.fifo.heap) j.fifo.first j.deque.items
  backward : Chain (pPrev j.fifo.heap) j.fifo.last j.deque.items.reverse
  firstNull : j.fifo.first = none ↔ j.deque.items = []
  lastNull : j.fifo.last = none ↔ j.deque.items = []
  size : j.fifo.size.toNat = j.deque.items.length
  bound : j.fifo.size.toNat ≤ j.fifo.maxSize.toNat
  result : j.result = j.expected

/-- The calls after which both end pointers are right again: none takes the only
element off, and no prepend evicts it. -/
def Keeps (j : Joint) : QueueOp → Prop
  | .push _ => True
  | .prepend _ => ¬ (j.deque.capacity = 1 ∧ j.deque.items.length = 1)
  | .shift | .pop => j.deque.items.length ≠ 1

instance (j : Joint) : ∀ op, Decidable (j.Keeps op)
  | .push _ => inferInstanceAs (Decidable True)
  | .prepend _ =>
      inferInstanceAs (Decidable (¬ (j.deque.capacity = 1 ∧ j.deque.items.length = 1)))
  | .shift => inferInstanceAs (Decidable (j.deque.items.length ≠ 1))
  | .pop => inferInstanceAs (Decidable (j.deque.items.length ≠ 1))

structure Inv (j : Joint) : Prop where
  holds : j.fifo.Holds j.deque.items
  lastNull : j.deque.items = [] → j.fifo.last = none
  capacity : j.deque.capacity = j.fifo.maxSize.toNat
  result : j.result = j.expected
  inHand : ∀ a, j.returned = some a → Loose j.fifo.heap a ∧ a ∉ j.deque.items

theorem Inv.agrees {j : Joint} (h : j.Inv) : j.Agrees := by
  have hbound : j.fifo.size.toNat ≤ j.fifo.maxSize.toNat := h.holds.size ▸ h.holds.fits
  by_cases hq : j.deque.items = []
  · have hfirst := h.holds.emptied hq
    have hlast := h.lastNull hq
    exact ⟨h.holds.forward, by rw [hq]; exact hlast, by simp [hq, hfirst], by simp [hq, hlast],
      h.holds.size, hbound, h.result⟩
  · have hlinked := h.holds.linked hq
    refine ⟨hlinked.forward, hlinked.backward, ?_, ?_, h.holds.size, hbound, h.result⟩
    · rw [hlinked.first_eq, List.head?_eq_none_iff]
    · rw [hlinked.last_eq, List.getLast?_eq_none_iff]

theorem start_inv (maxSize : UInt32) (hmax : 0 < maxSize.toNat) : (start maxSize hmax).Inv :=
  ⟨Fifo.created_holds maxSize _, fun _ => rfl, rfl, rfl, fun a ha => by cases ha⟩

theorem obtain_spec {m : Malloc EventNode} {j : Joint} {src : Source} {a : Addr} {f : Fifo}
    {r : Option Addr} (h : j.Inv) (hsrc : j.obtain m src = some (a, f, r)) :
    f.Holds j.deque.items ∧ f.maxSize = j.fifo.maxSize ∧ Loose f.heap a ∧ a ∉ j.deque.items ∧
      ∀ b, r = some b → Loose f.heap b ∧ b ∉ j.deque.items ∧ b ≠ a := by
  cases src with
  | fresh rk msg =>
      simp only [obtain, Option.some.injEq, Prod.mk.injEq] at hsrc
      obtain ⟨rfl, rfl, rfl⟩ := hsrc
      refine ⟨n2aEventInit_holds h.holds m rk msg, rfl, n2aEventInit_loose m _ rk msg, ?_, ?_⟩
      · exact fun hmem => n2aEventInit_fresh (h.holds.live _ hmem) m rk msg rfl
      · intro b hb
        obtain ⟨hloose, hnot⟩ := h.inHand b hb
        exact ⟨n2aEventInit_loose_of_loose hloose m rk msg, hnot,
          n2aEventInit_fresh hloose.live m rk msg⟩
  | returned =>
      simp only [obtain, Option.map_eq_some_iff, Prod.mk.injEq] at hsrc
      obtain ⟨a', ha', rfl, rfl, rfl⟩ := hsrc
      obtain ⟨hloose, hnot⟩ := h.inHand a' ha'
      exact ⟨h.holds, rfl, hloose, hnot, fun b hb => by cases hb⟩

theorem push_inv {m : Malloc EventNode} {j j' : Joint} {src : Source} (h : j.Inv)
    (hstep : j.step m (.push src) = some j') : j'.Inv := by
  simp only [step, Option.map_eq_some_iff] at hstep
  obtain ⟨⟨a, f, r⟩, hsrc, rfl⟩ := hstep
  obtain ⟨hq, hsame, ha, haq, hr⟩ := obtain_spec h hsrc
  have hcap : j.deque.capacity = f.maxSize.toNat := by rw [h.capacity, hsame]
  have hpos : 0 < f.maxSize.toNat := hcap ▸ j.deque.positive
  obtain ⟨hpush, -⟩ := n2aPush_holds hq hpos ha haq
  rw [← hcap] at hpush
  refine ⟨hpush, fun hnil => absurd hnil (by simp), ?_, rfl, ?_⟩
  · exact hcap.trans (congrArg UInt32.toNat (n2aPush_sameFile f a).maxSize.symm)
  · intro b hb
    obtain ⟨hloose, hnot, hne⟩ := hr b hb
    refine ⟨n2aPush_loose hq hloose hnot hne, ?_⟩
    rw [BoundedDeque.push_items, List.mem_append, List.mem_singleton, not_or]
    exact ⟨fun hmem => hnot (mem_of_mem_roomBehind hmem), hne⟩

theorem prepend_inv {m : Malloc EventNode} {j j' : Joint} {src : Source} (h : j.Inv)
    (hkeep : j.Keeps (.prepend src)) (hstep : j.step m (.prepend src) = some j') : j'.Inv := by
  simp only [step, Option.map_eq_some_iff] at hstep
  obtain ⟨⟨a, f, r⟩, hsrc, rfl⟩ := hstep
  obtain ⟨hq, hsame, ha, haq, hr⟩ := obtain_spec h hsrc
  have hcap : j.deque.capacity = f.maxSize.toNat := by rw [h.capacity, hsame]
  have hpos : 0 < f.maxSize.toNat := hcap ▸ j.deque.positive
  have hlen : j.deque.items.length < f.maxSize.toNat ∨ 1 < j.deque.items.length := by
    have hkeep' : ¬ (j.deque.capacity = 1 ∧ j.deque.items.length = 1) := hkeep
    omega
  have hprepend := n2aPrepend_holds hq hpos hlen ha haq
  rw [← hcap] at hprepend
  refine ⟨hprepend, fun hnil => absurd hnil (by simp), ?_, rfl, ?_⟩
  · exact hcap.trans (congrArg UInt32.toNat (n2aPrepend_sameFile f a).maxSize.symm)
  · intro b hb
    obtain ⟨hloose, hnot, hne⟩ := hr b hb
    refine ⟨n2aPrepend_loose hq hpos hlen hloose hnot hne, ?_⟩
    rw [BoundedDeque.prepend_items, List.mem_cons, not_or]
    exact ⟨hne, fun hmem => hnot (mem_of_mem_roomBefore hmem)⟩

theorem shift_inv {m : Malloc EventNode} {j j' : Joint} (h : j.Inv) (hkeep : j.Keeps .shift)
    (hstep : j.step m .shift = some j') : j'.Inv := by
  simp only [step, Option.some.injEq] at hstep
  subst hstep
  have hlen : j.deque.items.length ≠ 1 := hkeep
  refine ⟨n2aShift_holds h.holds, ?_, ?_, ?_, ?_⟩
  · intro hnil
    have hitems : j.deque.items = [] := by
      apply List.eq_nil_of_length_eq_zero
      have htail := congrArg List.length hnil
      rw [BoundedDeque.shift_items, List.length_tail, List.length_nil] at htail
      omega
    rw [n2aShift_last]
    exact h.lastNull hitems
  · exact h.capacity.trans (congrArg UInt32.toNat (n2aShift_sameFile j.fifo).maxSize.symm)
  · exact (n2aShift_fst j.fifo).trans h.holds.first_eq
  · intro a ha
    have hfirst : j.fifo.first = some a := (n2aShift_fst j.fifo).symm.trans ha
    have hhead : j.deque.items.head? = some a := h.holds.first_eq.symm.trans hfirst
    refine ⟨n2aShift_loose hfirst (h.holds.live a (List.mem_of_mem_head? hhead)), ?_⟩
    have hnd := h.holds.nodup
    rw [BoundedDeque.shift_items]
    cases hitems : j.deque.items with
    | nil => simp
    | cons b l =>
        rw [hitems] at hhead hnd
        cases hhead
        exact (List.nodup_cons.mp hnd).1

theorem pop_inv {m : Malloc EventNode} {j j' : Joint} (h : j.Inv) (hkeep : j.Keeps .pop)
    (hstep : j.step m .pop = some j') : j'.Inv := by
  simp only [step, Option.some.injEq] at hstep
  subst hstep
  have hlen : j.deque.items.length ≠ 1 := hkeep
  have hcap := h.capacity.trans (congrArg UInt32.toNat (n2aPop_sameFile j.fifo).maxSize.symm)
  rcases List.eq_nil_or_concat' j.deque.items with hnil | ⟨q, a, hq⟩
  · have hlast := h.lastNull hnil
    refine ⟨?_, ?_, hcap, ?_, ?_⟩ <;> simp only [n2aPop_of_none hlast, BoundedDeque.pop_items, hnil]
    · have hholds := h.holds
      rwa [hnil] at hholds
    · exact fun _ => hlast
    · exact (by simp [BoundedDeque.pop, hnil])
    · exact fun a ha => by cases ha
  · rcases List.eq_nil_or_concat' q with rfl | ⟨l, b, rfl⟩
    · simp [hq] at hlen
    · have hholds := h.holds
      rw [hq] at hholds
      have hlast : j.fifo.last = some a := by simpa using (hholds.linked (by simp)).last_eq
      refine ⟨?_, ?_, hcap, ?_, ?_⟩
      · rw [BoundedDeque.pop_items, hq, List.dropLast_concat]
        exact n2aPop_holds hholds
      · intro hnil
        rw [BoundedDeque.pop_items, hq, List.dropLast_concat] at hnil
        exact absurd hnil (by simp)
      · rw [n2aPop_fst, hlast]
        simp [BoundedDeque.pop, hq]
      · intro c hc
        rw [n2aPop_fst, hlast] at hc
        cases hc
        refine ⟨n2aPop_loose hlast (hholds.live a (by simp)), ?_⟩
        rw [BoundedDeque.pop_items, hq, List.dropLast_concat]
        exact not_mem_of_nodup_concat hholds.nodup

theorem step_inv {m : Malloc EventNode} {j j' : Joint} {op : QueueOp} (h : j.Inv)
    (hkeep : j.Keeps op) (hstep : j.step m op = some j') : j'.Inv := by
  cases op with
  | push src => exact push_inv h hstep
  | prepend src => exact prepend_inv h hkeep hstep
  | shift => exact shift_inv h hkeep hstep
  | pop => exact pop_inv h hkeep hstep

/-! ## The calls that break it -/

/-- Taking the only event off at the front leaves `last` pointing at it. -/
theorem shift_breaks {m : Malloc EventNode} {j j' : Joint} (h : j.Inv)
    (hone : j.deque.items.length = 1) (hstep : j.step m .shift = some j') : ¬ j'.Agrees := by
  simp only [step, Option.some.injEq] at hstep
  subst hstep
  obtain ⟨a, hitems⟩ := List.length_eq_one_iff.mp hone
  intro hagrees
  have hlast : j.fifo.last = some a := by
    simpa [hitems] using (h.holds.linked (by simp [hitems])).last_eq
  have hnull : (n2aShift j.fifo).2.last = none := hagrees.lastNull.mpr (by simp [hitems])
  rw [n2aShift_last, hlast] at hnull
  cases hnull

/-- Taking it off at the back leaves `first` pointing at it. -/
theorem pop_breaks {m : Malloc EventNode} {j j' : Joint} (h : j.Inv)
    (hone : j.deque.items.length = 1) (hstep : j.step m .pop = some j') : ¬ j'.Agrees := by
  simp only [step, Option.some.injEq] at hstep
  subst hstep
  obtain ⟨a, hitems⟩ := List.length_eq_one_iff.mp hone
  intro hagrees
  have hfirst : j.fifo.first = some a := by simpa [hitems] using h.holds.first_eq
  have hnull : (n2aPop j.fifo).2.first = none := hagrees.firstNull.mpr (by simp [hitems])
  rw [n2aPop_first, hfirst] at hnull
  cases hnull

/-- Evicting the only event for a prepended one goes through that stale `first`,
so `last` stays NULL. -/
theorem prepend_breaks {m : Malloc EventNode} {j j' : Joint} {src : Source} (h : j.Inv)
    (hcap : j.deque.capacity = 1) (hone : j.deque.items.length = 1)
    (hstep : j.step m (.prepend src) = some j') : ¬ j'.Agrees := by
  simp only [step, Option.map_eq_some_iff] at hstep
  obtain ⟨⟨a, f, r⟩, hsrc, rfl⟩ := hstep
  obtain ⟨hq, hsame, -, -, -⟩ := obtain_spec h hsrc
  obtain ⟨b, hitems⟩ := List.length_eq_one_iff.mp hone
  rw [hitems] at hq
  intro hagrees
  have hlinked := hq.checkSize.linked (by simp)
  have hfirst : (n2aCheckSize f).first = some b := hlinked.first_eq
  have hlast : (n2aCheckSize f).last = some b := hlinked.last_eq
  have hprev : pPrev (n2aCheckSize f).heap b = none := hlinked.backward.2
  have hfull : (n2aCheckSize f).full = true := by
    apply hq.full_iff.mpr
    rw [hsame, ← h.capacity, hcap]
    simp
  have hstale : (f.makeRoom n2aPop).first = some b ∧ (f.makeRoom n2aPop).last = none := by
    simp [Fifo.makeRoom, hfull, n2aPop, hlast, hprev, n2aFreeEvent, hfirst]
  have hnull : (n2aPrepend f a).2.last = none := by
    simp [n2aPrepend, Fifo.linkFirst, Fifo.countOne, hstale.1, hstale.2]
  have hnil := hagrees.lastNull.mp hnull
  simp at hnil

theorem step_agrees_iff {m : Malloc EventNode} {j j' : Joint} {op : QueueOp} (h : j.Inv)
    (hstep : j.step m op = some j') : j'.Agrees ↔ j.Keeps op := by
  refine ⟨fun hagrees => ?_, fun hkeep => (step_inv h hkeep hstep).agrees⟩
  cases op with
  | push src => trivial
  | prepend src => exact fun ⟨hcap, hone⟩ => prepend_breaks h hcap hone hstep hagrees
  | shift => exact fun hone => shift_breaks h hone hstep hagrees
  | pop => exact fun hone => pop_breaks h hone hstep hagrees

/-- Along every sequence of calls, the linked queue agrees with the deque after
each of them exactly as long as every call keeps the end pointers. -/
theorem run_agrees_iff (m : Malloc EventNode) (maxSize : UInt32) (hmax : 0 < maxSize.toNat)
    (ops : List QueueOp) :
    Always (step m) Agrees (start maxSize hmax) ops ↔
      Each (step m) Keeps (start maxSize hmax) ops := by
  have hiff : ∀ j op j', Inv j → step m j op = some j' → (Agrees j' ↔ Keeps j op) :=
    fun _ _ _ hinv hstep => step_agrees_iff hinv hstep
  have hkeep : ∀ j op j', Inv j → step m j op = some j' → Agrees j' → Inv j' :=
    fun _ _ _ hinv hstep hagrees => step_inv hinv ((step_agrees_iff hinv hstep).mp hagrees) hstep
  exact always_iff_each hiff hkeep (start_inv maxSize hmax)

/-- Events taken off at either end of a longer queue, the first one given back. -/
theorem run_agrees_three : Always (step Heap.bump) Agrees (start 3 (by decide))
    [.push (.fresh (.lit "rk0") (.lit "a")), .push (.fresh (.lit "rk1") (.lit "b")), .shift,
      .push .returned, .prepend (.fresh (.lit "rk2") (.lit "c")), .pop] :=
  (run_agrees_iff Heap.bump 3 (by decide) _).mpr (by decide)

/-- A queue emptied by one shift: `first` is NULL, `last` still names the event
that was handed out. -/
theorem push_shift_disagrees : ¬ Always (step Heap.bump) Agrees (start 10 (by decide))
    [.push (.fresh (.lit "rk0") (.lit "First Event")), .shift] := by
  intro h
  obtain ⟨-, hshift⟩ := h _ rfl
  obtain ⟨hagrees, -⟩ := hshift _ rfl
  have hlast := hagrees.lastNull.mpr rfl
  exact absurd hlast (by decide)

end Joint

end Neb2Amqp
