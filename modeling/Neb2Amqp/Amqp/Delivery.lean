import Neb2Amqp.Amqp.Invariant
import Neb2Amqp.Fifo.Csync
import Neb2Amqp.Library.Outbox

/-!
# Delivery

The module refines an outbox: `n2a_send_event` accepts one message, a successful
`amqp_basic_publish` delivers the oldest and a push on a full queue evicts it.
-/

namespace Neb2Amqp

open CLib
open BoundedDeque (roomBehind)

/-- The event a call brought to the broker. -/
def Call.delivered : Call → Option Event
  | .basicPublish _ _ ev _ status => if 0 ≤ status then some ev else none
  | _ => none

/-- The event a call threw away. -/
def Call.evicted : Call → Option Event
  | .push queued _ full => if full then queued.head? else none
  | _ => none

def Session.published (s : Session) : List Event := s.log.filterMap Call.delivered

def Session.evicted (s : Session) : List Event := s.log.filterMap Call.evicted

/-! ## The session -/

theorem Call.delivered_of_quiet {c : Call} (h : c.quiet = true) : c.delivered = none := by
  cases c with
  | basicPublish | published | push => cases h
  | _ => rfl

theorem Call.evicted_of_quiet {c : Call} (h : c.quiet = true) : c.evicted = none := by
  cases c with
  | basicPublish | published | push => cases h
  | _ => rfl

theorem Quietly.filterMap {α : Type} {s s' : Session} (h : Quietly s s') {g : Call → Option α}
    (hg : ∀ c : Call, c.quiet = true → g c = none) :
    s'.log.filterMap g = s.log.filterMap g := by
  obtain ⟨calls, hcalls, hquiet⟩ := h.log
  have hnone : calls.filterMap g = [] :=
    List.filterMap_eq_nil_iff.mpr (fun c hc => hg c (hquiet c hc))
  rw [hcalls, List.filterMap_append, hnone, List.append_nil]

theorem Quietly.published {s s' : Session} (h : Quietly s s') : s'.published = s.published :=
  h.filterMap fun _ => Call.delivered_of_quiet

theorem Quietly.evicted {s s' : Session} (h : Quietly s s') : s'.evicted = s.evicted :=
  h.filterMap fun _ => Call.evicted_of_quiet

theorem Session.call_published (s : Session) (c : Call) :
    (s.call c).published = s.published ++ c.delivered.toList := by
  cases hc : c.delivered <;> simp [published, call, hc]

theorem Session.call_evicted (s : Session) (c : Call) :
    (s.call c).evicted = s.evicted ++ c.evicted.toList := by
  cases hc : c.evicted <;> simp [evicted, call, hc]

variable {o : Options} {b : Broker}

/-- Exactly a publication that is reported as successful delivers its event. -/
theorem n2aAmqpPublish_published {s : Session} (ev : Event) (hs : s.Sound) :
    (n2aAmqpPublish o b ev s).2.published =
        s.published ++ (if (n2aAmqpPublish o b ev s).1 then [ev] else []) ∧
      (n2aAmqpPublish o b ev s).2.evicted = s.evicted := by
  have hcheck := (n2aAmqpCheck_spec (o := o) (b := b) hs).1
  rcases n2aAmqpPublish_cases ev hs rfl with ⟨-, hr⟩ | ⟨-, hok, hr⟩ | ⟨-, hok, hr⟩
  · rw [hr, Session.call_published, Session.call_evicted, hcheck.published, hcheck.evicted]
    simp [Call.delivered, Call.evicted]
  · rw [hr]
    simp only [Session.call_published, Session.call_evicted, hcheck.published, hcheck.evicted]
    simp [Call.delivered, Call.evicted, publication, hok]
  · have hclose := n2aAmqpDisconnect_quietly (b := b)
      { (n2aAmqpCheck o b s).2.call (publication o b ev (n2aAmqpCheck o b s).2) with
        amqpErrors := true }
    have hsame : Quietly ((n2aAmqpCheck o b s).2.call (publication o b ev (n2aAmqpCheck o b s).2))
        { (n2aAmqpCheck o b s).2.call (publication o b ev (n2aAmqpCheck o b s).2) with
          amqpErrors := true } := .of_same_log rfl rfl
    rw [hr]
    simp only [Session.call_published, Session.call_evicted, (hsame.trans hclose).published,
      (hsame.trans hclose).evicted, hcheck.published, hcheck.evicted]
    simp [Call.delivered, Call.evicted, publication, hok]

/-! ## The queue -/

/-- The module is at the outbox `b`. -/
structure State.Tracks (o : Options) (s : State) (b : Outbox Event) : Prop where
  carries : s.pFifo.Carries b.queue
  capacity : s.pFifo.maxSize = o.cacheSize.toUInt32
  published : s.amqp.published = b.withFate .delivered
  evicted : s.amqp.evicted = b.withFate .evicted
  sound : s.amqp.Sound

namespace State.Tracks

variable {w : Env} {s : State} {b : Outbox Event}

theorem of_same (h : s.Tracks o b) {t : State} (hqueue : s.pFifo.SameQueue t.pFifo)
    (hpublished : t.amqp.published = s.amqp.published)
    (hevicted : t.amqp.evicted = s.amqp.evicted) (hsound : t.amqp.Sound) : t.Tracks o b :=
  ⟨hqueue.carries h.carries, hqueue.maxSize.trans h.capacity, hpublished.trans h.published,
    hevicted.trans h.evicted, hsound⟩

theorem quietly (h : s.Tracks o b) {amqp : Session} (hquiet : Quietly s.amqp amqp)
    (hsound : amqp.Sound) : State.Tracks o { s with amqp := amqp } b :=
  h.of_same (.refl _) hquiet.published hquiet.evicted hsound

theorem flushLoop (left : Nat) (h : s.Tracks o b) :
    ∃ b', (Neb2Amqp.flushLoop o w left s).Tracks o b' ∧ b'.stream = b.stream := by
  induction left generalizing s b with
  | zero => exact ⟨b, h, rfl⟩
  | succ left ih =>
      cases hq : b.queue with
      | nil =>
          have hcarries := h.carries
          rw [hq] at hcarries
          have hshift := n2aShift_of_carries_nil hcarries
          refine ⟨b, ?_, rfl⟩
          simp only [Neb2Amqp.flushLoop, hshift]
          exact h
      | cons ev q =>
          have hcarries := h.carries
          rw [hq] at hcarries
          obtain ⟨a, hfst, hev, hfreed, hback⟩ := n2aShift_carries hcarries
          have hshift : n2aShift s.pFifo = (some a, (n2aShift s.pFifo).2) := Prod.ext hfst rfl
          have hread : eventOf (n2aShift s.pFifo).2 a = ev := by rw [eventOf, hev]; rfl
          have hshifted := n2aShift_sameFile s.pFifo
          obtain ⟨hpublished, hevicted⟩ :=
            n2aAmqpPublish_published (o := o) (b := w.broker) ev h.sound
          have hsound := n2aAmqpPublish_sound (o := o) (b := w.broker) ev h.sound
          unfold Neb2Amqp.flushLoop
          rw [hshift]
          simp only [hread]
          cases hok : (n2aAmqpPublish o w.broker ev s.amqp).1 with
          | false =>
              rw [hok] at hpublished
              refine ⟨b, ⟨?_, ?_, ?_, hevicted.trans h.evicted, hsound⟩, rfl⟩
              · rw [hq]
                exact hback
              · exact ((hshifted.trans (n2aPrepend_sameFile _ a)).maxSize).trans h.capacity
              · exact hpublished.trans ((List.append_nil _).trans h.published)
          | true =>
              rw [hok] at hpublished
              have hnext : State.Tracks o { s with
                  amqp := (n2aAmqpPublish o w.broker ev s.amqp).2
                  pFifo := n2aFreeEvent (n2aShift s.pFifo).2 (some a) } (b.settle .delivered) := by
                refine ⟨?_, ?_, ?_, ?_, hsound⟩
                · simpa [Outbox.settle, hq] using hfreed
                · exact ((hshifted.trans (n2aFreeEvent_sameFile _ _)).maxSize).trans h.capacity
                · rw [Outbox.withFate_settle, ← h.published, hq]
                  exact hpublished
                · rw [Outbox.withFate_settle, ← h.evicted]
                  exact hevicted.trans (List.append_nil _).symm
              obtain ⟨b', htracks, hstream⟩ := ih hnext
              exact ⟨b', htracks, hstream.trans (Outbox.stream_settle _ b)⟩

theorem flushQueue (timestamp : Int32) (h : s.Tracks o b) :
    ∃ b', (Neb2Amqp.flushQueue o w timestamp s).Tracks o b' ∧ b'.stream = b.stream := by
  unfold Neb2Amqp.flushQueue
  simp only []
  split
  · have hstart := h.quietly (.call s.amqp (c := .flushRound timestamp) rfl)
      (h.sound.call (c := .flushRound timestamp) trivial)
    obtain ⟨b', htracks, hstream⟩ := hstart.flushLoop (w := w) (flushQuota o).toInt.toNat
    exact ⟨b', htracks.quietly (.of_same_log rfl rfl) ⟨htracks.sound.connected,
      htracks.sound.proper⟩, hstream⟩
  · exact ⟨b, h, rfl⟩

theorem saveQueue (timestamp : Int32) (h : s.Tracks o b) :
    (Neb2Amqp.saveQueue o w timestamp s).Tracks o b := by
  unfold Neb2Amqp.saveQueue
  simp only []
  split
  · have hcall : Quietly s.amqp (s.amqp.call (.csync timestamp)) := .call _ rfl
    exact h.of_same (n2aCsync_sameQueue _ _) hcall.published hcall.evicted (h.sound.call trivial)
  · exact h

theorem fifoCheck (h : s.Tracks o b) :
    ∃ b', (n2aFifoCheck o w s).Tracks o b' ∧ b'.stream = b.stream := by
  have hquiet : Quietly s.amqp (gettimeofday w.broker s.amqp).2 := .call _ rfl
  have hclock := h.quietly hquiet (h.sound.call trivial)
  obtain ⟨b', htracks, hstream⟩ :=
    hclock.flushQueue (w := w) (gettimeofday w.broker s.amqp).1.toInt32
  exact ⟨b', htracks.saveQueue _, hstream⟩

theorem pushEvent (ev : Event) (h : s.Tracks o b) (hcache : 0 < o.cacheSize.toUInt32.toNat) :
    ∃ b', (Neb2Amqp.pushEvent w ev s).2.Tracks o b' ∧ b'.stream = b.stream ++ [ev] := by
  have hpushed := enqueue_carries h.carries (h.capacity ▸ hcache) w.malloc ev
  have hmax := (enqueue_sameFile w.malloc s.pFifo ev).maxSize.trans h.capacity
  have hfull := h.carries.full_iff
  have hsound : (Neb2Amqp.pushEvent w ev s).2.amqp.Sound := pushEvent_sound ev h.sound
  have hpublished : (Neb2Amqp.pushEvent w ev s).2.amqp.published = s.amqp.published :=
    (s.amqp.call_published _).trans (List.append_nil _)
  have hevicted : (Neb2Amqp.pushEvent w ev s).2.amqp.evicted = s.amqp.evicted ++
      (Call.evicted (.push s.pFifo.events ev (n2aCheckSize s.pFifo).full)).toList :=
    s.amqp.call_evicted _
  rw [h.carries.events_eq] at hevicted
  by_cases hroom : b.queue.length < s.pFifo.maxSize.toNat
  · have hnot : (n2aCheckSize s.pFifo).full = false := by
      cases hf : (n2aCheckSize s.pFifo).full with
      | false => rfl
      | true => exact absurd hroom (hfull.mp hf)
    rw [roomBehind, if_pos hroom] at hpushed
    rw [hnot] at hevicted
    refine ⟨b.accept ev, ⟨hpushed, hmax, hpublished.trans h.published, ?_, hsound⟩, by simp⟩
    exact hevicted.trans ((List.append_nil _).trans h.evicted)
  · rw [roomBehind, if_neg hroom] at hpushed
    rw [hfull.mpr hroom] at hevicted
    refine ⟨(b.settle .evicted).accept ev, ⟨?_, hmax, ?_, ?_, hsound⟩, by simp⟩
    · have htail : ((b.settle .evicted).accept ev).queue = b.queue.tail ++ [ev] := by
        cases hq : b.queue <;> simp [Outbox.settle, Outbox.accept, hq]
      rw [htail]
      exact hpushed
    · rw [Outbox.withFate_accept, Outbox.withFate_settle, ← h.published]
      exact hpublished.trans (List.append_nil _).symm
    · rw [Outbox.withFate_accept, Outbox.withFate_settle, ← h.evicted]
      exact hevicted

theorem sendEvent (ev : Event) (h : s.Tracks o b) (hcache : 0 < o.cacheSize.toUInt32.toNat) :
    ∃ b', (n2aSendEvent o w ev s).2.Tracks o b' ∧ b'.stream = b.stream ++ [ev] := by
  have hspec := n2aAmqpCheck_spec (o := o) (b := w.broker) h.sound
  obtain ⟨b₁, h₁, hstream₁⟩ := (h.quietly hspec.1 hspec.2.1).fifoCheck (w := w)
  generalize hready : n2aFifoCheck o w
    { s with amqp := (n2aAmqpCheck o w.broker s.amqp).2 } = t at h₁
  obtain ⟨hpublished, hevicted⟩ :=
    n2aAmqpPublish_published (o := o) (b := w.broker) ev h₁.sound
  have hsound := n2aAmqpPublish_sound (o := o) (b := w.broker) ev h₁.sound
  unfold n2aSendEvent
  simp only [hready]
  split
  · rename_i hdirect
    have hempty : b₁.queue = [] := h₁.carries.size_eq_zero_iff.mp hdirect.2
    cases hok : (n2aAmqpPublish o w.broker ev t.amqp).1 with
    | false =>
        rw [hok] at hpublished
        have hfailed := h₁.of_same (t := { t with amqp := (n2aAmqpPublish o w.broker ev t.amqp).2 })
          (.refl _) (hpublished.trans (List.append_nil _)) hevicted hsound
        obtain ⟨b₂, h₂, hstream₂⟩ := hfailed.pushEvent (w := w) ev hcache
        exact ⟨b₂, h₂, by rw [hstream₂, hstream₁]⟩
    | true =>
        rw [hok] at hpublished
        refine ⟨(b₁.accept ev).settle .delivered, ⟨?_, h₁.capacity, ?_, ?_, hsound⟩, by
          simp [hstream₁]⟩
        · simpa [Outbox.settle, Outbox.accept, hempty] using h₁.carries
        · rw [Outbox.withFate_settle, Outbox.withFate_accept, ← h₁.published]
          simpa [Outbox.accept, hempty] using hpublished
        · rw [Outbox.withFate_settle, Outbox.withFate_accept, ← h₁.evicted]
          exact hevicted.trans (List.append_nil _).symm
  · obtain ⟨b₂, h₂, hstream₂⟩ := h₁.pushEvent (w := w) ev hcache
    exact ⟨b₂, h₂, by rw [hstream₂, hstream₁]⟩

theorem toggleBlackout (h : s.Tracks o b) :
    State.Tracks o { s with amqp := (n2aToggleBlackout w.broker s.amqp).2 } b := by
  have hsound := n2aToggleBlackout_sound (b := w.broker) h.sound
  have hclose := n2aAmqpDisconnect_quietly (b := w.broker) s.amqp
  have hlog : (n2aToggleBlackout w.broker s.amqp).2.log = s.amqp.log ∨
      (n2aToggleBlackout w.broker s.amqp).2.log = (n2aAmqpDisconnect w.broker s.amqp).log := by
    unfold n2aToggleBlackout
    cases s.amqp.blackout with
    | false => exact Or.inr rfl
    | true => exact Or.inl rfl
  rcases hlog with hlog | hlog
  · exact h.of_same (.refl _) (congrArg (List.filterMap Call.delivered) hlog)
      (congrArg (List.filterMap Call.evicted) hlog) hsound
  · exact h.of_same (.refl _)
      ((congrArg (List.filterMap Call.delivered) hlog).trans hclose.published)
      ((congrArg (List.filterMap Call.evicted) hlog).trans hclose.evicted) hsound

theorem step (h : s.Tracks o b) (hcache : 0 < o.cacheSize.toUInt32.toNat) (op : Op) :
    ∃ b', (s.step o w op).Tracks o b' ∧ b'.stream = b.stream ++ sentEvents [op] := by
  cases op with
  | sendEvent ev => exact h.sendEvent ev hcache
  | amqpCheck =>
      have hspec := n2aAmqpCheck_spec (o := o) (b := w.broker) h.sound
      exact ⟨b, h.quietly hspec.1 hspec.2.1, (List.append_nil _).symm⟩
  | toggleBlackout => exact ⟨b, h.toggleBlackout, (List.append_nil _).symm⟩
  | amqpDisconnect =>
      exact ⟨b, h.quietly (n2aAmqpDisconnect_quietly _) (n2aAmqpDisconnect_sound h.sound.proper),
        (List.append_nil _).symm⟩

theorem run (h : s.Tracks o b) (hcache : 0 < o.cacheSize.toUInt32.toNat) (ops : List Op) :
    ∃ b', (s.run o w ops).Tracks o b' ∧ b'.stream = b.stream ++ sentEvents ops := by
  induction ops generalizing s b with
  | nil => exact ⟨b, h, (List.append_nil _).symm⟩
  | cons op ops ih =>
      obtain ⟨b₁, h₁, hstream₁⟩ := h.step (w := w) hcache op
      obtain ⟨b₂, h₂, hstream₂⟩ := ih h₁
      refine ⟨b₂, h₂, ?_⟩
      have hsent : sentEvents (op :: ops) = sentEvents [op] ++ sentEvents ops :=
        List.filterMap_append (l := [op])
      rw [hstream₂, hstream₁, List.append_assoc, hsent]

end State.Tracks

theorem State.loaded_tracks {f : Fifo} {q : List Event} (hf : f.Carries q)
    (hmax : f.maxSize = o.cacheSize.toUInt32) : (loaded f).Tracks o (.start q) :=
  ⟨hf, hmax, rfl, rfl, Session.loaded_sound⟩

/-! ## Main result -/

/-- Events reach the broker in the order they were sent. Those missing are the
ones a push evicted, which came next in that order when they were. -/
theorem State.run_delivers (o : Options) (w : Env) (hcache : 1 ≤ o.cacheSize.toInt) (f : Fifo)
    (q : List Event) (hf : f.Carries q) (hmax : f.maxSize = o.cacheSize.toUInt32)
    (ops : List Op) :
    (∃ settled : List (Event × Fate),
      settled.map Prod.fst ++ ((loaded f).run o w ops).pFifo.events = q ++ sentEvents ops ∧
      ((loaded f).run o w ops).amqp.published =
        (settled.filter fun p => p.2 = .delivered).map Prod.fst ∧
      ((loaded f).run o w ops).amqp.evicted =
        (settled.filter fun p => p.2 = .evicted).map Prod.fst) ∧
    (((loaded f).run o w ops).amqp.published ++ ((loaded f).run o w ops).pFifo.events).Sublist
      (q ++ sentEvents ops) ∧
    ((∀ queued ev, Call.push queued ev true ∉ ((loaded f).run o w ops).amqp.log) →
      ((loaded f).run o w ops).amqp.published ++ ((loaded f).run o w ops).pFifo.events =
        q ++ sentEvents ops) ∧
    (((loaded f).run o w ops).pFifo.events.length : Int) ≤ o.cacheSize.toInt := by
  have hcap := toNat_toUInt32 (x := o.cacheSize) (by omega)
  obtain ⟨b, h, hstream⟩ := (loaded_tracks hf hmax).run (w := w) (by omega) ops
  rw [Outbox.stream_start] at hstream
  rw [h.carries.events_eq]
  refine ⟨⟨b.settled, hstream, h.published, h.evicted⟩, ?_, fun hnone => ?_, ?_⟩
  · rw [h.published, ← hstream]
    exact b.delivered_queue_sublist
  · rw [h.published, ← hstream]
    apply Outbox.delivered_queue_eq
    rw [← h.evicted]
    apply List.filterMap_eq_nil_iff.mpr
    intro c hc
    cases c with
    | push queued ev full =>
        cases full with
        | false => rfl
        | true => exact absurd hc (hnone queued ev)
    | _ => rfl
  · have hlen := h.carries.length_le
    rw [h.capacity] at hlen
    omega

/-- A queue of one, filled when the module is loaded, and three more events. -/
theorem State.run_delivers_reliable :
    (((loaded (.filled Heap.bump 1 ⟨none, []⟩ [⟨.lit "a", .lit "1"⟩])).run
        { Options.default with cacheSize := 1 } .reliable
        [.sendEvent ⟨.lit "b", .lit "2"⟩, .toggleBlackout, .sendEvent ⟨.lit "c", .lit "3"⟩,
          .sendEvent ⟨.lit "d", .lit "4"⟩]).pFifo.events.length : Int) ≤ 1 :=
  (run_delivers { Options.default with cacheSize := 1 } .reliable (by decide)
    (.filled Heap.bump 1 ⟨none, []⟩ [⟨.lit "a", .lit "1"⟩]) [⟨.lit "a", .lit "1"⟩]
    (Fifo.filled_carries _ _ (by decide)) rfl _).2.2.2

end Neb2Amqp
