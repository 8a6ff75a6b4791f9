import Neb2Amqp.Amqp.Delivery

/-!
# Flush rounds

When a flush round of `n2a_fifo_check` gets any event off the queue. Without an
explicit quota it takes a fifth of the cache size, which for the smallest caches
rounds down to nothing.
-/

namespace Neb2Amqp

open CLib

/-- The event of a call to `amqp_basic_publish`, whatever it returned. -/
def Call.attempted : Call → Option Event
  | .basicPublish _ _ ev _ _ => some ev
  | _ => none

/-- The events a check tries to publish, in order. -/
def State.attempts (s s' : State) : List Event :=
  (s'.amqp.log.drop s.amqp.log.length).filterMap Call.attempted

/-- The flush round of a check starting in `s` tries the oldest event, and where
publishing succeeds leaves fewer events queued. -/
def State.FlushAdvances (o : Options) (w : Env) (s : State) : Prop :=
  (s.attempts (n2aFifoCheck o w s)).head? = s.pFifo.events.head? ∧
    ((∀ n, 0 ≤ w.broker.basicPublish n) →
      (n2aFifoCheck o w s).pFifo.events.length < s.pFifo.events.length)

variable {o : Options} {w : Env}

/-! ## The quota -/

theorem flushQuota_of_default (hcache : 1 ≤ o.cacheSize.toInt) (hflush : o.flush = -1) :
    (flushQuota o).toInt = min (o.cacheSize.toInt / 5) 1000 := by
  have hfifth : (o.cacheSize / 5).toInt = o.cacheSize.toInt / 5 := by
    rw [Int32.toInt_div_of_ne_right _ _ (by decide)]
    exact Int.tdiv_eq_ediv_of_nonneg (by omega)
  have hcap : (1000 : Int32).toInt = 1000 := by decide
  unfold flushQuota
  simp only [hflush, if_true]
  split
  · rename_i hbig
    have hbig' := Int32.lt_iff_toInt_lt.mp hbig
    omega
  · rename_i hsmall
    have hsmall' := Int32.le_iff_toInt_le.mp (Int32.not_lt.mp hsmall)
    omega

/-- A fifth of a cache of less than five events is no event at all. -/
theorem flushQuota_pos_iff (hcache : 1 ≤ o.cacheSize.toInt)
    (hflush : o.flush = -1 ∨ 0 < o.flush.toInt) :
    0 < (flushQuota o).toInt.toNat ↔ 0 < o.flush.toInt ∨ 5 ≤ o.cacheSize.toInt := by
  rcases hflush with hdefault | hset
  · have hneg : o.flush.toInt = -1 := by rw [hdefault]; decide
    rw [Int.lt_toNat, flushQuota_of_default hcache hdefault]
    omega
  · have hne : o.flush ≠ -1 := by
      intro h
      rw [h] at hset
      exact absurd hset (by decide)
    rw [flushQuota, if_neg hne]
    omega

/-! ## The rounds -/

theorem n2aAmqpPublish_of_connected {b : Broker} {s : Session} (ev : Event) (hs : s.Sound)
    (hconnected : s.amqpConnected = true) :
    s.log ++ [publication o b ev s] <+: (n2aAmqpPublish o b ev s).2.log ∧
      (n2aAmqpPublish o b ev s).1 = decide (0 ≤ b.basicPublish s.log.length) ∧
      ((n2aAmqpPublish o b ev s).1 = true → (n2aAmqpPublish o b ev s).2.amqpConnected = true) := by
  have hcheck : (n2aAmqpCheck o b s).2 = s := by
    have hblackout := (hs.connected hconnected).2.2
    simp [n2aAmqpCheck, hblackout, hconnected]
  rcases n2aAmqpPublish_cases ev hs hcheck with ⟨hno, -⟩ | ⟨-, hok, hr⟩ | ⟨-, hok, hr⟩
  · exact absurd (hconnected.symm.trans hno) (by simp)
  · rw [hr]
    exact ⟨List.prefix_append _ _, (decide_eq_true hok).symm, fun _ => hconnected⟩
  · obtain ⟨calls, hcalls, -⟩ := (n2aAmqpDisconnect_quietly (b := b)
      { s.call (publication o b ev s) with amqpErrors := true }).log
    rw [hr]
    refine ⟨List.IsPrefix.trans ?_ (List.prefix_append _ _), (decide_eq_false hok).symm,
      fun h => absurd h Bool.false_ne_true⟩
    rw [hcalls]
    exact List.prefix_append _ _

theorem flushLoop_log (left : Nat) {s : State} (hs : s.amqp.Sound)
    (hconnected : s.amqp.amqpConnected = true) :
    s.amqp.log <+: (flushLoop o w left s).amqp.log ∧
      ∀ a f, n2aShift s.pFifo = (some a, f) → 0 < left →
        s.amqp.log ++ [publication o w.broker (eventOf f a) s.amqp] <+:
          (flushLoop o w left s).amqp.log := by
  induction left generalizing s with
  | zero => exact ⟨List.prefix_refl _, fun _ _ _ h => absurd h (Nat.lt_irrefl 0)⟩
  | succ left ih =>
      cases hshift : n2aShift s.pFifo with
      | mk p f =>
          cases p with
          | none =>
              simp only [flushLoop, hshift]
              exact ⟨List.prefix_refl _, fun _ _ h => by cases h⟩
          | some a =>
              obtain ⟨hlog, -, hkeep⟩ := n2aAmqpPublish_of_connected (o := o) (b := w.broker)
                (eventOf f a) hs hconnected
              have hsound := n2aAmqpPublish_sound (o := o) (b := w.broker) (eventOf f a) hs
              have hend : (n2aAmqpPublish o w.broker (eventOf f a) s.amqp).2.log <+:
                  (flushLoop o w (left + 1) s).amqp.log := by
                simp only [flushLoop, hshift]
                cases hok : (n2aAmqpPublish o w.broker (eventOf f a) s.amqp).1 with
                | false => exact List.prefix_refl _
                | true => exact (ih (s := { s with amqp := _, pFifo := _ }) hsound (hkeep hok)).1
              refine ⟨((List.prefix_append _ _).trans hlog).trans hend, fun a' f' heq _ => ?_⟩
              cases heq
              exact hlog.trans hend

theorem flushLoop_drop (left : Nat) {s : State} {q : List Event} (hs : s.amqp.Sound)
    (hconnected : s.amqp.amqpConnected = true) (hq : s.pFifo.Carries q)
    (hok : ∀ n, 0 ≤ w.broker.basicPublish n) :
    (flushLoop o w left s).pFifo.Carries (q.drop left) := by
  induction left generalizing s q with
  | zero => exact hq
  | succ left ih =>
      cases q with
      | nil =>
          simp only [flushLoop, n2aShift_of_carries_nil hq]
          exact hq
      | cons ev q =>
          obtain ⟨a, hfst, -, hfreed, -⟩ := n2aShift_carries hq
          have hshift : n2aShift s.pFifo = (some a, (n2aShift s.pFifo).2) := Prod.ext hfst rfl
          obtain ⟨-, hresult, hkeep⟩ := n2aAmqpPublish_of_connected (o := o) (b := w.broker)
            (eventOf (n2aShift s.pFifo).2 a) hs hconnected
          have hsound := n2aAmqpPublish_sound (o := o) (b := w.broker)
            (eventOf (n2aShift s.pFifo).2 a) hs
          rw [decide_eq_true (hok _)] at hresult
          unfold flushLoop
          rw [hshift]
          simp only [hresult]
          exact ih (s := { s with amqp := _, pFifo := _ }) hsound (hkeep hresult) hfreed

/-! ## Main result -/

/-- A flush round is due. -/
def State.FlushDue (o : Options) (w : Env) (s : State) : Prop :=
  s.amqp.amqpConnected = true ∧ s.pFifo.events ≠ [] ∧
    o.flushInterval ≤ (w.broker.gettimeofday s.amqp.log.length).toInt32 - s.amqp.fifoLastFlush

/-- The state in which the loop of a flush round starts. -/
def State.flushStart (w : Env) (s : State) : State :=
  { s with
    amqp := (gettimeofday w.broker s.amqp).2.call
      (.flushRound (w.broker.gettimeofday s.amqp.log.length).toInt32) }

theorem State.flushStart_log (s : State) : (s.flushStart w).amqp.log = s.amqp.log ++
    [.gettimeofday (w.broker.gettimeofday s.amqp.log.length),
      .flushRound (w.broker.gettimeofday s.amqp.log.length).toInt32] := by
  simp [flushStart, gettimeofday, Session.call]

theorem State.attempts_of_log {s s' : State} {calls : List Call}
    (h : s'.amqp.log = s.amqp.log ++ calls) : s.attempts s' = calls.filterMap Call.attempted := by
  rw [attempts, h, List.drop_left]

/-- A check that is due runs the loop; saving afterwards publishes nothing. -/
theorem n2aFifoCheck_of_due {s : State} {ev : Event} {q : List Event}
    (hq : s.pFifo.Carries (ev :: q)) (hdue : s.FlushDue o w) :
    (∃ calls, (n2aFifoCheck o w s).amqp.log =
        (flushLoop o w (flushQuota o).toInt.toNat (s.flushStart w)).amqp.log ++ calls ∧
        ∀ c ∈ calls, c.quiet = true) ∧
      (flushLoop o w (flushQuota o).toInt.toNat (s.flushStart w)).pFifo.SameQueue
        (n2aFifoCheck o w s).pFifo := by
  have hsize : s.pFifo.size > 0 := by
    rw [gt_iff_lt, UInt32.lt_iff_toNat_lt, hq.size]
    simp
  have hflush : flushQueue o w (w.broker.gettimeofday s.amqp.log.length).toInt32
      { s with amqp := (gettimeofday w.broker s.amqp).2 } =
      { flushLoop o w (flushQuota o).toInt.toNat (s.flushStart w) with
        amqp := { (flushLoop o w (flushQuota o).toInt.toNat (s.flushStart w)).amqp with
          fifoLastFlush := (w.broker.gettimeofday s.amqp.log.length).toInt32 } } :=
    if_pos ⟨hdue.1, hsize, hdue.2.2⟩
  have hcheck : n2aFifoCheck o w s = saveQueue o w
      (w.broker.gettimeofday s.amqp.log.length).toInt32 (flushQueue o w
        (w.broker.gettimeofday s.amqp.log.length).toInt32
        { s with amqp := (gettimeofday w.broker s.amqp).2 }) := rfl
  rw [hcheck, hflush]
  unfold saveQueue
  simp only []
  split
  · exact ⟨⟨[_], rfl, by simp [Call.quiet]⟩, n2aCsync_sameQueue _ _⟩
  · exact ⟨⟨[], (List.append_nil _).symm, by simp⟩, .refl _⟩

theorem Call.attempted_of_quiet {c : Call} (h : c.quiet = true) : c.attempted = none := by
  cases c with
  | basicPublish | published | push => cases h
  | _ => rfl

/-- In every state a run can reach, a due flush round gets on with the queue
exactly when its quota is not zero. -/
theorem State.flushAdvances_iff (o : Options) (w : Env) (hcache : 1 ≤ o.cacheSize.toInt)
    (hflush : o.flush = -1 ∨ 0 < o.flush.toInt) (f : Fifo) (q : List Event) (hf : f.Carries q)
    (hmax : f.maxSize = o.cacheSize.toUInt32) (ops : List Op)
    (hdue : ((loaded f).run o w ops).FlushDue o w) :
    ((loaded f).run o w ops).FlushAdvances o w ↔
      0 < o.flush.toInt ∨ 5 ≤ o.cacheSize.toInt := by
  have hcap := toNat_toUInt32 (x := o.cacheSize) (by omega)
  obtain ⟨b, h, -⟩ := (loaded_tracks hf hmax).run (w := w) (by omega) ops
  generalize (loaded f).run o w ops = s at hdue h
  rw [← flushQuota_pos_iff hcache hflush]
  have hevents := h.carries.events_eq
  have hcarries := h.carries
  cases hqueue : b.queue with
  | nil => exact absurd (hevents.trans hqueue) hdue.2.1
  | cons ev rest =>
      rw [hqueue] at hevents hcarries
      have hsound : (s.flushStart w).amqp.Sound :=
        (h.sound.call (c := .gettimeofday _) trivial).call (c := .flushRound _) trivial
      obtain ⟨⟨calls, hlog, hquiet⟩, hsame⟩ := n2aFifoCheck_of_due hcarries hdue
      constructor
      · intro hadvances
        have hattempt := hadvances.1
        apply Nat.pos_of_ne_zero
        intro hzero
        rw [hzero] at hlog
        have hcalls : calls.filterMap Call.attempted = [] :=
          List.filterMap_eq_nil_iff.mpr (fun c hc => Call.attempted_of_quiet (hquiet c hc))
        rw [flushLoop, flushStart_log, List.append_assoc] at hlog
        rw [attempts_of_log hlog, List.filterMap_append, hcalls, hevents] at hattempt
        cases hattempt
      · intro hpos
        refine ⟨?_, fun hok => ?_⟩
        · obtain ⟨a, hfst, hev, -, -⟩ := n2aShift_carries hcarries
          have hread : eventOf (n2aShift s.pFifo).2 a = ev := by rw [eventOf, hev]; rfl
          obtain ⟨more, hmore⟩ := (flushLoop_log (o := o) (w := w)
            (flushQuota o).toInt.toNat hsound hdue.1).2 a (n2aShift s.pFifo).2
              (Prod.ext hfst rfl) hpos
          rw [← hmore, flushStart_log, List.append_assoc, List.append_assoc, List.append_assoc]
            at hlog
          rw [attempts_of_log hlog, hevents, hread]
          rfl
        · have hdrop := hsame.carries (flushLoop_drop (o := o) (w := w)
            (flushQuota o).toInt.toNat hsound hdue.1 hcarries hok)
          rw [hdrop.events_eq, hevents, List.length_drop, List.length_cons]
          omega

/-- One queued event and a fresh connection, with room for `cacheSize` events. -/
def State.backlog (cacheSize : Int32) : State :=
  (loaded (.filled Heap.bump cacheSize.toUInt32 ⟨none, []⟩ [⟨.lit "a", .lit "1"⟩])).run
    { Options.default with cacheSize := cacheSize } .reliable [.amqpCheck]

theorem State.flushAdvances_default :
    (backlog 10000).FlushAdvances Options.default .reliable :=
  (flushAdvances_iff Options.default .reliable (by decide) (by decide)
    (.filled Heap.bump 10000 ⟨none, []⟩ [⟨.lit "a", .lit "1"⟩]) [⟨.lit "a", .lit "1"⟩]
    (Fifo.filled_carries _ _ (by decide)) rfl [.amqpCheck]
    ⟨by decide +kernel, by decide +kernel, by decide +kernel⟩).mpr (Or.inr (by decide))

/-- With `cache_size=4` a due round attempts nothing. -/
theorem State.backlog_stuck :
    (backlog 4).FlushDue { Options.default with cacheSize := 4 } .reliable ∧
      ¬ (backlog 4).FlushAdvances { Options.default with cacheSize := 4 } .reliable := by
  refine ⟨⟨by decide +kernel, by decide +kernel, by decide +kernel⟩, fun h => ?_⟩
  have hattempt := h.1
  revert hattempt
  decide +kernel

end Neb2Amqp
