import Neb2Amqp.Amqp.FlushRate
import Neb2Amqp.Fifo.AllEvents

/-!
# A property of all events, from being sent to being published

What holds of every event handed to `n2a_send_event` holds of every event that reaches
`amqp_basic_publish`, on whatever way it gets there.
-/

namespace Neb2Amqp

open CLib

variable {P : Event → Prop}

/-- Only such events were handed to `amqp_basic_publish`. -/
def Session.TriesOnly (P : Event → Prop) (s : Session) : Prop :=
  ∀ c ∈ s.log, ∀ ev, c.attempted = some ev → P ev

theorem Session.Tried.only {s s' : Session} {evs : List Event} (h : Tried s.log evs s')
    (hs : s.TriesOnly P) (hevs : ∀ ev ∈ evs, P ev) : s'.TriesOnly P := by
  obtain ⟨calls, hlog, -, rfl⟩ := h
  intro c hc ev hev
  rw [hlog] at hc
  rcases List.mem_append.mp hc with hold | hnew
  · exact hs c hold ev hev
  · exact hevs ev (List.mem_filterMap.mpr ⟨c, hnew, hev⟩)

/-- The same of every event in memory, and of those in the file if `A`, which is to mean that no call
of it fails. -/
structure State.Holds (A : Prop) (P : Event → Prop) (s : State) : Prop where
  tried : s.amqp.TriesOnly P
  queued : s.pFifo.All P
  stored : A → s.pFifo.Stores P

namespace State.Holds

variable {A : Prop} {o : Options} {w : Env} {s : State}

theorem mono {Q : Event → Prop} (h : s.Holds A P) (hpq : ∀ ev, P ev → Q ev) : s.Holds A Q :=
  ⟨fun c hc ev hev => hpq ev (h.tried c hc ev hev), h.queued.mono hpq,
    fun ha => (h.stored ha).mono hpq⟩

theorem loaded {f : Fifo} (hqueued : f.All P) (hstored : A → f.Stores P) :
    (State.loaded f).Holds A P :=
  ⟨fun _ hc => absurd hc List.not_mem_nil, hqueued, hstored⟩

theorem session (h : s.Holds A P) {amqp : Session} {evs : List Event}
    (htried : amqp.Tried s.amqp.log evs) (hevs : ∀ ev ∈ evs, P ev) :
    State.Holds A P { s with amqp := amqp } :=
  ⟨htried.only h.tried hevs, h.queued, h.stored⟩

theorem quietSession (h : s.Holds A P) {amqp : Session} (htried : amqp.Tried s.amqp.log []) :
    State.Holds A P { s with amqp := amqp } :=
  h.session htried fun _ hev => absurd hev List.not_mem_nil

theorem publish (h : s.Holds A P) (hs : s.amqp.Sound) {ev : Event} (hev : P ev) :
    State.Holds A P { s with amqp := (n2aAmqpPublish o w.broker ev s.amqp).2 } := by
  rcases (Session.Tried.refl s.amqp).publish (o := o) (b := w.broker) hs ev with htried | htried
  · exact h.quietSession htried
  · exact h.session htried (List.forall_mem_singleton.mpr hev)

theorem flushLoop (hempty : P ⟨.ofBytes [], .ofBytes []⟩) (left : Nat) (hs : s.amqp.Sound)
    (h : s.Holds A P) : (Neb2Amqp.flushLoop o w left s).Holds A P := by
  induction left generalizing s with
  | zero => exact h
  | succ left ih =>
      have hqueued : (n2aShift s.pFifo).2.All P := h.queued.shift
      have hstored : A → (n2aShift s.pFifo).2.Stores P :=
        fun ha => (h.stored ha).of_sameFile (n2aShift_sameFile _)
      unfold Neb2Amqp.flushLoop
      split
      · rename_i f hshift
        rw [hshift] at hqueued hstored
        exact ⟨h.tried, hqueued, hstored⟩
      · rename_i pEvent f hshift
        rw [hshift] at hqueued hstored
        have hev : P (eventOf f pEvent) := hqueued.eventOf hempty pEvent
        have hpublished := h.publish (o := o) (w := w) hs hev
        have hsound := n2aAmqpPublish_sound (o := o) (b := w.broker) (eventOf f pEvent) hs
        cases hok : (n2aAmqpPublish o w.broker (eventOf f pEvent) s.amqp).1 with
        | false =>
            simp only [hok]
            exact ⟨hpublished.tried, hqueued.prepend pEvent,
              fun ha => (hstored ha).of_sameFile (n2aPrepend_sameFile f pEvent)⟩
        | true =>
            simp only [hok]
            apply ih hsound
            exact ⟨hpublished.tried, hqueued.freeEvent (some pEvent),
              fun ha => (hstored ha).of_sameFile (n2aFreeEvent_sameFile f (some pEvent))⟩

theorem flushQueue (hempty : P ⟨.ofBytes [], .ofBytes []⟩) (timestamp : Int32)
    (hs : s.amqp.Sound) (h : s.Holds A P) : (Neb2Amqp.flushQueue o w timestamp s).Holds A P := by
  unfold Neb2Amqp.flushQueue
  simp only []
  split
  · have hmark : State.Holds A P { s with amqp := s.amqp.call (.flushRound timestamp) } := by
      refine ⟨fun c hc ev hev => ?_, h.queued, h.stored⟩
      rcases List.mem_append.mp hc with hold | hnew
      · exact h.tried c hold ev hev
      · rw [List.mem_singleton.mp hnew] at hev
        cases hev
    have hloop := flushLoop hempty (o := o) (w := w) (flushQuota o).toInt.toNat
      (hs.call (c := .flushRound timestamp) trivial) hmark
    exact ⟨hloop.tried, hloop.queued, hloop.stored⟩
  · exact h

theorem saveQueue (hfile : A → w.file.AllSucceed) (timestamp : Int32) (h : s.Holds A P) :
    (Neb2Amqp.saveQueue o w timestamp s).Holds A P := by
  unfold Neb2Amqp.saveQueue
  simp only []
  split
  · have hmark : State.Holds A P { s with amqp := s.amqp.call (.csync timestamp) } :=
      h.quietSession ((Session.Tried.refl s.amqp).call ⟨rfl, rfl⟩)
    refine ⟨hmark.tried, h.queued.of_eventAt ?_, fun ha => (h.stored ha).csync (hfile ha) h.queued⟩
    rw [(n2aCsync_sameQueue w.file s.pFifo).heap]
  · exact h

theorem fifoCheck (hfile : A → w.file.AllSucceed) (hempty : P ⟨.ofBytes [], .ofBytes []⟩)
    (hs : s.amqp.Sound) (h : s.Holds A P) : (n2aFifoCheck o w s).Holds A P := by
  have hclock : State.Holds A P { s with amqp := (gettimeofday w.broker s.amqp).2 } :=
    h.quietSession ((Session.Tried.refl s.amqp).call ⟨rfl, rfl⟩)
  have hsound : (gettimeofday w.broker s.amqp).2.Sound := hs.call (c := .gettimeofday _) trivial
  have hflushed := flushQueue (o := o) (w := w) hempty (gettimeofday w.broker s.amqp).1.toInt32
    (s := { s with amqp := (gettimeofday w.broker s.amqp).2 }) hsound hclock
  exact saveQueue (o := o) hfile (gettimeofday w.broker s.amqp).1.toInt32 hflushed

theorem pushEvent (h : s.Holds A P) {ev : Event} (hev : P ev) :
    (Neb2Amqp.pushEvent w ev s).2.Holds A P := by
  have hmark : State.Holds A P { s with
      amqp := s.amqp.call (.push s.pFifo.events ev (n2aCheckSize s.pFifo).full) } :=
    h.quietSession ((Session.Tried.refl s.amqp).call ⟨rfl, rfl⟩)
  exact ⟨hmark.tried, h.queued.enqueue w.malloc hev,
    fun ha => (h.stored ha).of_sameFile (enqueue_sameFile w.malloc s.pFifo ev)⟩

theorem sendEvent (hfile : A → w.file.AllSucceed) (hempty : P ⟨.ofBytes [], .ofBytes []⟩)
    (hs : s.amqp.Sound) (h : s.Holds A P) {ev : Event} (hev : P ev) :
    (n2aSendEvent o w ev s).2.Holds A P := by
  have hchecked : State.Holds A P { s with amqp := (n2aAmqpCheck o w.broker s.amqp).2 } :=
    h.quietSession (Session.Tried.refl s.amqp).check
  have hsound : (n2aAmqpCheck o w.broker s.amqp).2.Sound := (n2aAmqpCheck_spec hs).2.1
  have hready := fifoCheck (o := o) hfile hempty
    (s := { s with amqp := (n2aAmqpCheck o w.broker s.amqp).2 }) hsound hchecked
  have hsound' := n2aFifoCheck_sound (o := o) (w := w)
    (s := { s with amqp := (n2aAmqpCheck o w.broker s.amqp).2 }) hsound
  unfold n2aSendEvent
  simp only []
  generalize n2aFifoCheck o w { s with amqp := (n2aAmqpCheck o w.broker s.amqp).2 } = t
    at hready hsound'
  have hpublished := hready.publish (o := o) (w := w) hsound' hev
  split
  · split
    · exact pushEvent hpublished hev
    · exact hpublished
  · exact pushEvent hready hev

end State.Holds

end Neb2Amqp
