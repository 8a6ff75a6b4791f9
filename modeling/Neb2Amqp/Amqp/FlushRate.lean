import Neb2Amqp.Amqp.Flush
import Neb2Amqp.Amqp.Throttle

/-!
# How often and how much is flushed

`fifo_last_flush` is set by `n2a_fifo_check` at the end of a flush round, however the
round ended, and put back to 0 by `n2a_amqp_connect` when a connection was opened.
-/

namespace Neb2Amqp

open CLib

def Call.flushes : Call → Bool
  | .flushRound _ => true
  | _ => false

/-- One of the connections made in these calls was opened: what it was asked before the
next one was made, if any, was not refused. -/
def Reconnects (calls : List Call) : Prop :=
  ∃ before conn answers, calls = before ++ .newConnection conn :: answers ∧
    ∀ c ∈ answers.takeWhile fun c => !c.connects, c.refused = false

/-- From one flush round to the next, as the clock was read for each, unless a new
connection was opened between them. -/
def FlushesApart (o : Options) (log : List Call) : Prop :=
  Spaced Call.flushes
    (fun before c between => ¬ Reconnects between →
      Apart o.flushInterval (lastReading before) (lastReading (before ++ c :: between))) log

/-- The most events a flush round takes, as a number. -/
def flushLimit (o : Options) : Int :=
  if o.flush = -1 then max 0 (min (o.cacheSize.toInt.tdiv 5) 1000) else max 0 o.flush.toInt

/-! ## New connections -/

namespace Reconnects

variable {calls more : List Call}

theorem append (h : Reconnects calls)
    (hmore : ∀ c ∈ more.takeWhile (fun c => !c.connects), c.refused = false) :
    Reconnects (calls ++ more) := by
  obtain ⟨before, conn, answers, rfl, hanswers⟩ := h
  refine ⟨before, conn, answers ++ more, by simp, fun c hc => ?_⟩
  rw [List.takeWhile_append] at hc
  split at hc
  · rename_i hall
    have hwhole : answers.takeWhile (fun c => !c.connects) = answers :=
      (List.takeWhile_prefix _).eq_of_length hall
    rcases List.mem_append.mp hc with hold | hnew
    · exact hanswers c (hwhole.symm ▸ hold)
    · exact hmore c hnew
  · exact hanswers c hc

theorem prepend (h : Reconnects more) : Reconnects (calls ++ more) := by
  obtain ⟨before, conn, answers, rfl, hanswers⟩ := h
  exact ⟨calls ++ before, conn, answers, (List.append_assoc _ _ _).symm, hanswers⟩

end Reconnects

theorem reconnects_iff {opening answers : List Call} {conn : Connection}
    (hopening : ∀ c ∈ opening, c.connects = false) (hanswers : ∀ c ∈ answers, c.connects = false) :
    Reconnects (opening ++ .newConnection conn :: answers) ↔ ∀ c ∈ answers, c.refused = false := by
  have hwhole : answers.takeWhile (fun c => !c.connects) = answers :=
    List.takeWhile_eq_self_iff.mpr fun c hc => by simp [hanswers c hc]
  constructor
  · intro h
    obtain ⟨before, conn', answers', hsplit, hall⟩ := h
    have hlog : (opening ++ [.newConnection conn]) ++ answers =
        before ++ .newConnection conn' :: answers' := by
      rw [← hsplit, List.append_assoc, List.singleton_append]
    obtain ⟨after, rfl, hattempt⟩ := @split_of_unmarked _ Call.connects _ _ _ _ _ hlog rfl hanswers
    have hnil : after = [] := by
      cases List.eq_nil_or_concat after with
      | inl hnil => exact hnil
      | inr hconcat =>
          obtain ⟨front, last, rfl⟩ := hconcat
          rw [List.concat_eq_append, ← List.cons_append, ← List.append_assoc] at hattempt
          have hmem : Call.newConnection conn' ∈ opening :=
            (List.append_inj' hattempt rfl).1 ▸ List.mem_append_right _ List.mem_cons_self
          exact absurd (hopening _ hmem) (by simp [Call.connects])
    rw [hnil, List.nil_append, hwhole] at hall
    exact hall
  · intro h
    exact ⟨opening, conn, answers, rfl, hwhole.symm ▸ h⟩

variable {b : Broker} {s s' : Session} {closing answers : List Call}

theorem Session.Connects.unmarked (h : s.Connects b s' closing answers) :
    (∀ c ∈ closing, c.connects = false ∧ c.flushes = false ∧ c.refused = false ∧
      c.attempted = none) ∧
    ∀ c ∈ answers, c.connects = false ∧ c.flushes = false ∧ c.attempted = none := by
  constructor
  · rcases h.closes with ⟨-, rfl⟩ | ⟨-, r₁, r₂, status, rfl⟩
    · exact fun c hc => absurd hc List.not_mem_nil
    · simp [Call.connects, Call.flushes, Call.refused, Call.attempted]
  · intro c hc
    have hasks := h.asks c hc
    cases c with
    | socketOpen | login | channelOpen | exchangeDeclare | getRpcReply => exact ⟨rfl, rfl, rfl⟩
    | _ => cases hasks

/-! ## The timer -/

/-- Unless a connection was opened since, `fifo_last_flush` is the time of the last
round. -/
structure Session.RateLimited (o : Options) (s : Session) : Prop where
  spaced : Clocked s.log → FlushesApart o s.log
  timer : ∀ before c after, LastMark Call.flushes s.log before c after → ¬ Reconnects after →
    s.fifoLastFlush = (lastReading before).toInt32

namespace Session.RateLimited

variable {o : Options}

theorem loaded : RateLimited o .loaded := by
  refine ⟨fun _ => .nil, fun before c after hlast => ?_⟩
  exact absurd hlast.split (by simp [Session.loaded])

theorem append (h : RateLimited o s) {calls : List Call} (hlog : s'.log = s.log ++ calls)
    (hcalls : ∀ c ∈ calls, c.flushes = false ∧ c.refused = false)
    (htimer : s'.fifoLastFlush = s.fifoLastFlush) : RateLimited o s' := by
  have hflushes : ∀ c ∈ calls, c.flushes = false := fun c hc => (hcalls c hc).1
  constructor
  · intro hclock
    rw [hlog] at hclock ⊢
    exact Spaced.append (h.spaced hclock.of_append) hflushes
  · intro before c after hlast hnot
    rw [hlog] at hlast
    obtain ⟨after', rfl, hlast'⟩ := hlast.of_append hflushes
    rw [htimer]
    apply h.timer before c after' hlast'
    exact fun hopened => hnot (hopened.append fun c hc => (hcalls c ((List.takeWhile_sublist _).mem hc)).2)

theorem call (h : RateLimited o s) {c : Call} (hc : c.flushes = false ∧ c.refused = false) :
    RateLimited o (s.call c) :=
  h.append (show (s.call c).log = s.log ++ [c] from rfl) (List.forall_mem_singleton.mpr hc) rfl

theorem of_same (h : RateLimited o s) (hlog : s'.log = s.log)
    (htimer : s'.fifoLastFlush = s.fifoLastFlush) : RateLimited o s' :=
  h.append (hlog.trans (List.append_nil _).symm) (fun _ hc => absurd hc List.not_mem_nil) htimer

theorem connect (h : RateLimited o s) : RateLimited o (n2aAmqpConnect o b s).2 := by
  obtain ⟨closing, answers, hconnects⟩ := n2aAmqpConnect_connects o b s
  generalize (n2aAmqpConnect o b s).2 = s' at hconnects
  obtain ⟨hclosing, hanswers⟩ := hconnects.unmarked
  let opening : List Call := .gettimeofday (b.gettimeofday s.log.length) :: closing
  let attempt : List Call :=
    opening ++ .newConnection (s.log.length + 1 + closing.length) :: answers
  have hlog : s'.log = s.log ++ attempt := by
    rw [hconnects.log, List.append_assoc]
  have hopening : ∀ c ∈ opening, c.connects = false ∧ c.flushes = false ∧ c.refused = false :=
    List.forall_mem_cons.mpr ⟨⟨rfl, rfl, rfl⟩, fun c hc =>
      ⟨(hclosing c hc).1, (hclosing c hc).2.1, (hclosing c hc).2.2.1⟩⟩
  have hflushes : ∀ c ∈ attempt, c.flushes = false := by
    intro c hc
    rcases List.mem_append.mp hc with hmem | hmem
    · exact (hopening c hmem).2.1
    · rcases List.mem_cons.mp hmem with rfl | hanswer
      · rfl
      · exact (hanswers c hanswer).2.1
  have hreconnects : Reconnects attempt ↔ s'.amqpConnected = true := by
    rw [reconnects_iff (fun c hc => (hopening c hc).1) fun c hc => (hanswers c hc).1,
      hconnects.connected]
    simp
  constructor
  · intro hclock
    rw [hlog] at hclock ⊢
    exact Spaced.append (h.spaced hclock.of_append) hflushes
  · intro before c after hlast hnot
    rw [hlog] at hlast
    obtain ⟨after', rfl, hlast'⟩ := hlast.of_append hflushes
    -- the attempt failed, and left the timer as it was
    have hfailed : s'.amqpConnected = false :=
      Bool.eq_false_of_not_eq_true fun hopened => hnot (hreconnects.mpr hopened).prepend
    rw [hconnects.lastFlush, hfailed]
    apply h.timer before c after' hlast'
    intro hold
    apply hnot
    apply hold.append
    intro c hc
    have hbefore : c ∈ opening := by
      have hstop : attempt.takeWhile (fun c => !c.connects) = opening := by
        rw [List.takeWhile_append_of_pos fun c hc => by simp [(hopening c hc).1]]
        simp [Call.connects]
      exact hstop ▸ hc
    exact (hopening c hbefore).2.2

theorem disconnect (h : RateLimited o s) : RateLimited o (n2aAmqpDisconnect b s) := by
  obtain ⟨closing, hdisconnects⟩ := n2aAmqpDisconnect_disconnects b s
  apply h.append hdisconnects.log _ hdisconnects.lastFlush
  rcases hdisconnects.closes with ⟨-, rfl⟩ | ⟨-, r₁, r₂, status, rfl⟩
  · exact fun c hc => absurd hc List.not_mem_nil
  · simp [Call.flushes, Call.refused]

theorem kept (o : Options) (b : Broker) : Session.Kept o b (RateLimited o) where
  note s c hc h := by
    apply h.call
    cases c with
    | gettimeofday | published | push => exact ⟨rfl, rfl⟩
    | _ => cases hc
  connect s _ _ h := connect (h.call ⟨rfl, rfl⟩)
  publish s ev _ h := h.call ⟨rfl, rfl⟩
  disconnect s _ _ h := h.disconnect

end Session.RateLimited

/-! ## What a round publishes -/

/-- The log has grown by calls that begin no round, and tried to publish these. -/
def Session.Tried (log : List Call) (evs : List Event) (s : Session) : Prop :=
  ∃ calls, s.log = log ++ calls ∧ (∀ c ∈ calls, c.flushes = false) ∧
    calls.filterMap Call.attempted = evs

namespace Session.Tried

variable {log : List Call} {evs : List Event} {o : Options}

theorem refl (s : Session) : Tried s.log [] s :=
  ⟨[], (List.append_nil _).symm, fun _ hc => absurd hc List.not_mem_nil, rfl⟩

theorem append (h : Tried log evs s) {calls : List Call} (hlog : s'.log = s.log ++ calls)
    (hcalls : ∀ c ∈ calls, c.flushes = false) :
    Tried log (evs ++ calls.filterMap Call.attempted) s' := by
  obtain ⟨more, hmore, hflushes, rfl⟩ := h
  refine ⟨more ++ calls, ?_, fun c hc => ?_, List.filterMap_append⟩
  · rw [hlog, hmore, List.append_assoc]
  · exact (List.mem_append.mp hc).elim (hflushes c) (hcalls c)

theorem silent (h : Tried log evs s) {calls : List Call} (hlog : s'.log = s.log ++ calls)
    (hcalls : ∀ c ∈ calls, c.flushes = false ∧ c.attempted = none) : Tried log evs s' := by
  have hnone : calls.filterMap Call.attempted = [] :=
    List.filterMap_eq_nil_iff.mpr fun c hc => (hcalls c hc).2
  have happended := h.append hlog fun c hc => (hcalls c hc).1
  rw [hnone, List.append_nil] at happended
  exact happended

theorem call (h : Tried log evs s) {c : Call} (hc : c.flushes = false ∧ c.attempted = none) :
    Tried log evs (s.call c) :=
  h.silent (show (s.call c).log = s.log ++ [c] from rfl) (List.forall_mem_singleton.mpr hc)

theorem connect (h : Tried log evs s) : Tried log evs (n2aAmqpConnect o b s).2 := by
  obtain ⟨closing, answers, hconnects⟩ := n2aAmqpConnect_connects o b s
  obtain ⟨hclosing, hanswers⟩ := hconnects.unmarked
  have hlog := hconnects.log
  rw [List.append_assoc] at hlog
  apply h.silent hlog
  intro c hc
  rcases List.mem_append.mp hc with hmem | hmem
  · rcases List.mem_cons.mp hmem with rfl | hclose
    · exact ⟨rfl, rfl⟩
    · exact ⟨(hclosing c hclose).2.1, (hclosing c hclose).2.2.2⟩
  · rcases List.mem_cons.mp hmem with rfl | hanswer
    · exact ⟨rfl, rfl⟩
    · exact (hanswers c hanswer).2

theorem disconnect (h : Tried log evs s) : Tried log evs (n2aAmqpDisconnect b s) := by
  obtain ⟨closing, hdisconnects⟩ := n2aAmqpDisconnect_disconnects b s
  apply h.silent hdisconnects.log
  rcases hdisconnects.closes with ⟨-, rfl⟩ | ⟨-, r₁, r₂, status, rfl⟩
  · exact fun c hc => absurd hc List.not_mem_nil
  · simp [Call.flushes, Call.attempted]

theorem check (h : Tried log evs s) : Tried log evs (n2aAmqpCheck o b s).2 := by
  rcases n2aAmqpCheck_cases o b s with ⟨-, hr⟩ | ⟨-, -, hr⟩ | ⟨-, -, hr | ⟨-, hr⟩⟩
  · rw [hr]
    exact h
  · rw [hr]
    exact h
  · rw [hr]
    exact h.call ⟨rfl, rfl⟩
  · rw [hr]
    exact connect (h.call ⟨rfl, rfl⟩)

theorem toggleBlackout (h : Tried log evs s) : Tried log evs (n2aToggleBlackout b s).2 := by
  rcases n2aToggleBlackout_cases b s with ⟨-, htoggle⟩ | ⟨-, htoggle⟩
  · rw [htoggle]
    exact h.disconnect (b := b)
  · rw [htoggle]
    exact h

theorem publish (h : Tried log evs s) (hs : s.Sound) (ev : Event) :
    Tried log evs (n2aAmqpPublish o b ev s).2 ∨
      Tried log (evs ++ [ev]) (n2aAmqpPublish o b ev s).2 := by
  have hcheck : Tried log evs (n2aAmqpCheck o b s).2 := h.check
  have htry : Tried log (evs ++ [ev])
      ((n2aAmqpCheck o b s).2.call (publication o b ev (n2aAmqpCheck o b s).2)) :=
    hcheck.append (show _ = _ ++ [publication o b ev (n2aAmqpCheck o b s).2] from rfl)
      (List.forall_mem_singleton.mpr rfl)
  rcases n2aAmqpPublish_cases ev hs rfl with ⟨-, hr⟩ | ⟨-, -, hr⟩ | ⟨-, -, hr⟩
  · rw [hr]
    exact Or.inl (hcheck.call ⟨rfl, rfl⟩)
  · rw [hr]
    exact Or.inr (htry.call ⟨rfl, rfl⟩)
  · have hclosed : Tried log (evs ++ [ev]) (n2aAmqpDisconnect b _) :=
      disconnect (s := { (n2aAmqpCheck o b s).2.call (publication o b ev _) with
        amqpErrors := true }) htry
    rw [hr]
    exact Or.inr (hclosed.call ⟨rfl, rfl⟩)

end Session.Tried

variable {o : Options} {w : Env}

theorem flushLoop_tried (left : Nat) {s : State} {log : List Call} {evs : List Event}
    (hs : s.amqp.Sound) (h : s.amqp.Tried log evs) :
    ∃ more, more.length ≤ left ∧ (flushLoop o w left s).amqp.Tried log (evs ++ more) := by
  induction left generalizing s evs with
  | zero => exact ⟨[], Nat.le_refl 0, (List.append_nil evs).symm ▸ h⟩
  | succ left ih =>
      unfold flushLoop
      split
      · exact ⟨[], Nat.zero_le _, (List.append_nil evs).symm ▸ h⟩
      · rename_i pEvent f hshift
        have hsound := n2aAmqpPublish_sound (o := o) (b := w.broker) (eventOf f pEvent) hs
        have hone : ∃ one : List Event, one.length ≤ 1 ∧
            (n2aAmqpPublish o w.broker (eventOf f pEvent) s.amqp).2.Tried log (evs ++ one) := by
          rcases h.publish hs (eventOf f pEvent) with htried | htried
          · exact ⟨[], Nat.zero_le 1, (List.append_nil evs).symm ▸ htried⟩
          · exact ⟨[eventOf f pEvent], Nat.le_refl 1, htried⟩
        obtain ⟨one, hlength, htried⟩ := hone
        cases hok : (n2aAmqpPublish o w.broker (eventOf f pEvent) s.amqp).1 with
        | false =>
            simp only [hok]
            exact ⟨one, by omega, htried⟩
        | true =>
            simp only [hok]
            obtain ⟨more, hmore, hlater⟩ := ih
              (s := { s with amqp := _, pFifo := n2aFreeEvent f (some pEvent) }) hsound htried
            refine ⟨one ++ more, ?_, (List.append_assoc evs one more) ▸ hlater⟩
            rw [List.length_append]
            omega

/-- The first half of `n2a_fifo_check` logs a reading, and behind it a round or
nothing. A round ends by noting the time it began at. -/
theorem flushQueue_round (s : State) (hs : s.amqp.Sound) {t : Int64}
    (ht : (gettimeofday w.broker s.amqp).1 = t) {s' : State}
    (hs' : flushQueue o w t.toInt32 { s with amqp := (gettimeofday w.broker s.amqp).2 } = s') :
    s' = { s with amqp := (gettimeofday w.broker s.amqp).2 } ∨
      ∃ calls, s'.amqp.log = s.amqp.log ++ [.gettimeofday t] ++ [.flushRound t.toInt32] ++ calls ∧
        (∀ c ∈ calls, c.flushes = false) ∧
        (calls.filterMap Call.attempted).length ≤ (flushQuota o).toInt.toNat ∧
        t.toInt32 - s.amqp.fifoLastFlush ≥ o.flushInterval ∧
        s'.amqp.fifoLastFlush = t.toInt32 := by
  have hclock : (gettimeofday w.broker s.amqp).2.log = s.amqp.log ++ [.gettimeofday t] := by
    rw [← ht]
    rfl
  subst hs'
  unfold flushQueue
  simp only []
  split
  · rename_i hdue
    right
    have hstart : ((gettimeofday w.broker s.amqp).2.call (.flushRound t.toInt32)).Sound :=
      Session.Sound.call (hs.call (c := .gettimeofday _) trivial) trivial
    obtain ⟨evs, hlength, calls, hlog, hflushes, htried⟩ := flushLoop_tried (o := o) (w := w)
      (flushQuota o).toInt.toNat (s := { s with
        amqp := (gettimeofday w.broker s.amqp).2.call (.flushRound t.toInt32) }) hstart (.refl _)
    refine ⟨calls, ?_, hflushes, ?_, hdue.2.2, rfl⟩
    · rw [hlog, Session.call, hclock]
    · rw [htried, List.nil_append]
      exact hlength
  · exact Or.inl rfl

theorem flushQueue_rateLimited (s : State) (hs : s.amqp.Sound) (h : s.amqp.RateLimited o) :
    (flushQueue o w (gettimeofday w.broker s.amqp).1.toInt32
      { s with amqp := (gettimeofday w.broker s.amqp).2 }).amqp.RateLimited o := by
  have hclocked : (gettimeofday w.broker s.amqp).2.RateLimited o := h.call ⟨rfl, rfl⟩
  generalize ht : (gettimeofday w.broker s.amqp).1 = t
  rcases flushQueue_round (o := o) s hs ht rfl with
    hidle | ⟨calls, hlog, hflushes, -, hdue, htimer⟩
  · rw [hidle]
    exact hclocked
  · have hread : lastReading (s.amqp.log ++ [.gettimeofday t]) = t := lastReading_snoc _ t
    constructor
    · intro hclock
      rw [hlog] at hclock ⊢
      have hbefore : Clocked (s.amqp.log ++ [.gettimeofday t]) := hclock.of_append.of_append
      have hspaced : FlushesApart o (s.amqp.log ++ [.gettimeofday t]) :=
        Spaced.append (h.spaced hbefore.of_append) (List.forall_mem_singleton.mpr rfl)
      have hround : FlushesApart o (s.amqp.log ++ [.gettimeofday t] ++ [.flushRound t.toInt32]) := by
        apply Spaced.snoc hspaced
        intro before c between hlast hnot
        obtain ⟨after, rfl, hlast'⟩ := hlast.of_append (List.forall_mem_singleton.mpr rfl)
        have hlastFlush : s.amqp.fifoLastFlush = (lastReading before).toInt32 := by
          apply h.timer before c after hlast'
          exact fun hopened => hnot (hopened.append (by simp [Call.connects, Call.refused]))
        rw [hlastFlush] at hdue
        rw [hlast'.split, List.append_assoc] at hbefore
        have hle : lastReading before ≤ t := hbefore.le (by simp)
        rw [← hlast.split, hread]
        exact apart_of_elapsed hle hdue
      exact Spaced.append hround hflushes
    · intro before c after hlast _
      rw [hlog] at hlast
      obtain ⟨after', rfl, hlast'⟩ := hlast.of_append hflushes
      obtain ⟨rfl, -, -⟩ := hlast'.of_snoc rfl
      rw [htimer, hread]

/-! ## Runs -/

theorem flushQuota_toNat (o : Options) : ((flushQuota o).toInt.toNat : Int) = flushLimit o := by
  have hfifth : (o.cacheSize / 5).toInt = o.cacheSize.toInt.tdiv 5 :=
    Int32.toInt_div_of_ne_right _ _ (by decide)
  have hcap : (1000 : Int32).toInt = 1000 := by decide
  unfold flushLimit flushQuota
  simp only []
  split
  · split
    · rename_i hbig
      have hbig' := Int32.lt_iff_toInt_lt.mp hbig
      omega
    · rename_i hsmall
      have hsmall' := Int32.le_iff_toInt_le.mp (Int32.not_lt.mp hsmall)
      omega
  · omega

/-- The state in which `n2a_send_event` decides between publishing and queueing. -/
def State.ready (o : Options) (w : Env) (s : State) : State :=
  n2aFifoCheck o w { s with amqp := (n2aAmqpCheck o w.broker s.amqp).2 }

/-- The calls of a step: what is checked before a flush round, the round or nothing, and
the rest. Outside the round at most the event of the step itself is published, and that
with nothing queued. -/
structure State.Flushes (o : Options) (w : Env) (s : State) (op : Op)
    (before round after : List Call) : Prop where
  log : (s.step o w op).amqp.log = s.amqp.log ++ before ++ round ++ after
  checks : ∀ c ∈ before, c.flushes = false ∧ c.attempted = none
  takes : round = [] ∨ ∃ timestamp calls, round = .flushRound timestamp :: calls ∧
    (∀ c ∈ calls, c.flushes = false) ∧
    ((calls.filterMap Call.attempted).length : Int) ≤ flushLimit o
  ends : ∀ c ∈ after, c.flushes = false
  direct : after.filterMap Call.attempted = [] ∨ ∃ ev, op = .sendEvent ev ∧
    after.filterMap Call.attempted = [ev] ∧ (s.ready o w).pFifo.size = 0

theorem State.Flushes.of_tried (o : Options) (w : Env) (s : State) (op : Op)
    (h : (s.step o w op).amqp.Tried s.amqp.log []) :
    ∃ before, s.Flushes o w op before [] [] := by
  obtain ⟨calls, hlog, hflushes, htried⟩ := h
  refine ⟨calls, ?_, fun c hc => ⟨hflushes c hc, ?_⟩, Or.inl rfl, ?_, Or.inl rfl⟩
  · simpa using hlog
  · exact List.filterMap_eq_nil_iff.mp htried c hc
  · exact fun c hc => absurd hc List.not_mem_nil

theorem n2aSendEvent_tried (ev : Event) {s : State} (hs : (s.ready o w).amqp.Sound)
    {log : List Call} (h : (s.ready o w).amqp.Tried log []) :
    (n2aSendEvent o w ev s).2.amqp.Tried log [] ∨
      (n2aSendEvent o w ev s).2.amqp.Tried log [ev] ∧ (s.ready o w).pFifo.size = 0 := by
  unfold State.ready at hs h ⊢
  unfold n2aSendEvent
  simp only []
  generalize n2aFifoCheck o w { s with amqp := (n2aAmqpCheck o w.broker s.amqp).2 } = t at hs h ⊢
  split
  · rename_i hdirect
    have hpublish := h.publish (o := o) (b := w.broker) hs ev
    split
    · rcases hpublish with hnone | hone
      · exact Or.inl (hnone.call ⟨rfl, rfl⟩)
      · exact Or.inr ⟨hone.call ⟨rfl, rfl⟩, hdirect.2⟩
    · rcases hpublish with hnone | hone
      · exact Or.inl hnone
      · exact Or.inr ⟨hone, hdirect.2⟩
  · exact Or.inl (h.call ⟨rfl, rfl⟩)

/-- Behind its check `n2a_send_event` makes no round. -/
theorem n2aSendEvent_after (ev : Event) {s s' : State} {now : Int32}
    (hs : (s.ready o w).amqp.Sound) (hsaved : s.ready o w = saveQueue o w now s') :
    ∃ after, (n2aSendEvent o w ev s).2.amqp.log = s'.amqp.log ++ after ∧
      (∀ c ∈ after, c.flushes = false) ∧
      (after.filterMap Call.attempted = [] ∨
        after.filterMap Call.attempted = [ev] ∧ (s.ready o w).pFifo.size = 0) := by
  have hsince : (s.ready o w).amqp.Tried s'.amqp.log [] := by
    rw [hsaved]
    rcases saveQueue_cases o w now s' with ⟨-, hlog, -⟩ | ⟨-, hsame⟩
    · exact (Session.Tried.refl s'.amqp).silent hlog (List.forall_mem_singleton.mpr ⟨rfl, rfl⟩)
    · rw [hsame]
      exact .refl s'.amqp
  rcases n2aSendEvent_tried ev hs hsince with
    ⟨after, hlog, hends, htried⟩ | ⟨⟨after, hlog, hends, htried⟩, hsize⟩
  · exact ⟨after, hlog, hends, Or.inl htried⟩
  · exact ⟨after, hlog, hends, Or.inr ⟨htried, hsize⟩⟩

theorem n2aSendEvent_flushes (ev : Event) {s : State} (hs : s.amqp.Sound) :
    ∃ before round after, s.Flushes o w (.sendEvent ev) before round after := by
  have hchecked : (n2aAmqpCheck o w.broker s.amqp).2.Sound := (n2aAmqpCheck_spec hs).2.1
  have hready : (s.ready o w).amqp.Sound := n2aFifoCheck_sound (s := { s with amqp := _ }) hchecked
  obtain ⟨before, hbefore, hflushes, hnone⟩ :=
    Session.Tried.check (o := o) (b := w.broker) (.refl s.amqp)
  have hchecks : ∀ c ∈ before, c.flushes = false ∧ c.attempted = none :=
    fun c hc => ⟨hflushes c hc, List.filterMap_eq_nil_iff.mp hnone c hc⟩
  let checked : State := { s with amqp := (n2aAmqpCheck o w.broker s.amqp).2 }
  generalize ht : (gettimeofday w.broker checked.amqp).1 = t
  generalize hflushed : flushQueue o w t.toInt32
    { checked with amqp := (gettimeofday w.broker checked.amqp).2 } = s'
  have hsaved : s.ready o w = saveQueue o w t.toInt32 s' := by
    rw [← hflushed, ← ht]
    rfl
  obtain ⟨after, hafter, hends, hdirect⟩ := n2aSendEvent_after ev hready hsaved
  have hdirect' : after.filterMap Call.attempted = [] ∨ ∃ ev', Op.sendEvent ev = .sendEvent ev' ∧
      after.filterMap Call.attempted = [ev'] ∧ (s.ready o w).pFifo.size = 0 :=
    hdirect.imp_right fun h => ⟨ev, rfl, h⟩
  have hopening : ∀ c ∈ before ++ [.gettimeofday t], c.flushes = false ∧ c.attempted = none := by
    intro c hc
    rcases List.mem_append.mp hc with hmem | hmem
    · exact hchecks c hmem
    · rw [List.mem_singleton.mp hmem]
      exact ⟨rfl, rfl⟩
  rcases flushQueue_round (o := o) checked hchecked ht hflushed with
    hidle | ⟨calls, hlog, hcalls, hlength, -, -⟩
  · refine ⟨before ++ [.gettimeofday t], [], after, ?_, hopening, Or.inl rfl, hends, hdirect'⟩
    change (n2aSendEvent o w ev s).2.amqp.log = _
    rw [hafter, hidle, ← ht, ← List.append_assoc, ← hbefore, List.append_nil]
    rfl
  · refine ⟨before ++ [.gettimeofday t], .flushRound t.toInt32 :: calls, after, ?_, hopening,
      Or.inr ⟨t.toInt32, calls, rfl, hcalls, ?_⟩, hends, hdirect'⟩
    · change (n2aSendEvent o w ev s).2.amqp.log = _
      rw [hafter, hlog, ← List.append_assoc, ← hbefore]
      simp only [List.append_assoc, List.cons_append, List.nil_append]
      rfl
    · rw [← flushQuota_toNat]
      exact Int.ofNat_le.mpr hlength

theorem State.step_flushes {s : State} (hs : s.amqp.Sound) (op : Op) :
    ∃ before round after, s.Flushes o w op before round after := by
  cases op with
  | sendEvent ev => exact n2aSendEvent_flushes ev hs
  | amqpCheck =>
      obtain ⟨before, h⟩ := Flushes.of_tried o w s .amqpCheck
        (Session.Tried.check (.refl s.amqp))
      exact ⟨before, [], [], h⟩
  | amqpDisconnect =>
      obtain ⟨before, h⟩ := Flushes.of_tried o w s .amqpDisconnect
        (Session.Tried.disconnect (.refl s.amqp))
      exact ⟨before, [], [], h⟩
  | toggleBlackout =>
      obtain ⟨before, h⟩ := Flushes.of_tried o w s .toggleBlackout
        (Session.Tried.toggleBlackout (.refl s.amqp))
      exact ⟨before, [], [], h⟩

theorem State.step_rateLimited {s : State} (hs : s.amqp.Sound) (h : s.amqp.RateLimited o)
    (op : Op) : (s.step o w op).amqp.RateLimited o := by
  have hkept := Session.RateLimited.kept o w.broker
  cases op with
  | sendEvent ev => exact hkept.sendEvent flushQueue_rateLimited (fun s timestamp h => h.call ⟨rfl, rfl⟩) ev hs h
  | amqpCheck => exact hkept.check h
  | amqpDisconnect => exact h.disconnect
  | toggleBlackout =>
      change Session.RateLimited o (n2aToggleBlackout w.broker s.amqp).2
      rcases n2aToggleBlackout_cases w.broker s.amqp with ⟨-, htoggle⟩ | ⟨-, htoggle⟩
      · rw [htoggle]
        exact (h.disconnect (b := w.broker)).of_same rfl rfl
      · rw [htoggle]
        exact h.of_same rfl rfl

/-- Whatever the broker answers, in a run under a clock that shows positive times and
does not go back: two consecutive flush rounds without a new connection between them are
`flush_interval` seconds apart or more, no round publishes more than its share of the
queue, and nothing is published outside a round but the event that is being sent, with
nothing queued. -/
theorem State.run_flushes (o : Options) (w : Env) (f : Fifo) (ops : List Op)
    (hclock : Clocked ((loaded f).run o w ops).amqp.log) :
    FlushesApart o ((loaded f).run o w ops).amqp.log ∧
      ∀ earlier op later, ops = earlier ++ op :: later →
        ∃ before round after, ((loaded f).run o w earlier).Flushes o w op before round after := by
  constructor
  · have hrun : ∀ {s : State}, s.amqp.Sound → s.amqp.RateLimited o →
        (s.run o w ops).amqp.RateLimited o := by
      clear hclock
      induction ops with
      | nil => exact fun _ h => h
      | cons op ops ih => exact fun hs h => ih (step_sound hs op) (step_rateLimited hs h op)
    exact (hrun (s := loaded f) Session.loaded_sound .loaded).spaced hclock
  · intro earlier op later _
    exact step_flushes (run_sound (s := loaded f) Session.loaded_sound earlier) op

/-- Everything works, and the clock goes on with every call. -/
def Env.ticking : Env :=
  { Env.reliable with broker :=
    { Env.reliable.broker with gettimeofday := fun calls => 1000 + 10 * .ofNat calls } }

/-- A flush round takes one event. -/
def oneByOne : Options := { Options.default with flush := 1 }

/-- Three events under a blackout, and one after it, which the first round leaves queued. -/
def afterBlackout : List Op :=
  [.toggleBlackout, .sendEvent ⟨.lit "rk", .lit "1"⟩, .sendEvent ⟨.lit "rk", .lit "2"⟩,
    .sendEvent ⟨.lit "rk", .lit "3"⟩, .toggleBlackout, .sendEvent ⟨.lit "rk", .lit "4"⟩]

/-- With one more event there is a second round, of one event like the first. -/
theorem State.run_flushes_ticking :
    (((loaded (.created 10 ⟨none, []⟩)).run oneByOne .ticking
      (afterBlackout ++ [.sendEvent ⟨.lit "rk", .lit "5"⟩])).amqp.log.filter Call.flushes).length = 2 ∧
    FlushesApart oneByOne ((loaded (.created 10 ⟨none, []⟩)).run oneByOne .ticking
      (afterBlackout ++ [.sendEvent ⟨.lit "rk", .lit "5"⟩])).amqp.log ∧
    ∃ before round after, ((loaded (.created 10 ⟨none, []⟩)).run oneByOne .ticking
      afterBlackout).Flushes oneByOne .ticking (.sendEvent ⟨.lit "rk", .lit "5"⟩)
        before round after := by
  obtain ⟨hapart, hsteps⟩ := run_flushes oneByOne .ticking (.created 10 ⟨none, []⟩)
    (afterBlackout ++ [.sendEvent ⟨.lit "rk", .lit "5"⟩])
    ⟨by decide +kernel, List.all_iff_forall_prop.mp (by decide +kernel)⟩
  exact ⟨by decide +kernel, hapart, hsteps afterBlackout _ [] rfl⟩

end Neb2Amqp
