import Neb2Amqp.Amqp.Calls

/-!
# Automatic saves

`n2a_fifo_check` saves the queue when the clock stands `autosync` seconds or more
after the last save. What decides is the comparison alone, also for the negative
values that are to switch automatic saves off.
-/

namespace Neb2Amqp

open CLib

/-- The time at which a save began. -/
def Call.saved : Call → Option Int32
  | .csync timestamp => some timestamp
  | _ => none

def Call.reading : Call → Option Int64
  | .gettimeofday tvSec => some tvSec
  | _ => none

/-! ## The comparison by itself -/

/-- The readings at which a save is due, from the last save on. -/
def dueReadings (autosync : Int32) : Int32 → List Int64 → List Int64
  | _, [] => []
  | last, t :: ts =>
      if t.toInt32 - last ≥ autosync then t :: dueReadings autosync t.toInt32 ts
      else dueReadings autosync last ts

/-- The two readings are as far apart as they have to be. -/
def Apart (autosync : Int32) (r t : Int64) : Prop := autosync.toInt ≤ t.toInt - r.toInt

/-- The difference of the low halves is never more than that of the readings. -/
theorem apart_of_elapsed {autosync : Int32} {r t : Int64} (hle : r ≤ t)
    (helapsed : t.toInt32 - r.toInt32 ≥ autosync) : Apart autosync r t := by
  have hsub : (t.toInt32 - r.toInt32).toInt = (t.toInt - r.toInt).bmod (2 ^ 32) := by
    rw [Int32.toInt_sub, Int64.toInt_toInt32, Int64.toInt_toInt32]
    exact (Int.sub_bmod _ _ _).symm
  have hlow : (t.toInt - r.toInt).bmod (2 ^ 32) ≤ t.toInt - r.toInt := by
    have hpos : 0 ≤ t.toInt - r.toInt := Int.sub_nonneg.mpr (Int64.le_iff_toInt_le.mp hle)
    rw [Int.bmod_def]
    split <;> omega
  have hdue := Int32.le_iff_toInt_le.mp helapsed
  rw [hsub] at hdue
  exact hdue.trans hlow

theorem dueReadings_after (autosync : Int32) (r : Int64) {ts : List Int64}
    (hsorted : (r :: ts).Pairwise (· ≤ ·)) :
    (r :: dueReadings autosync r.toInt32 ts).IsChain (Apart autosync) := by
  induction ts generalizing r with
  | nil => exact .singleton r
  | cons t ts ih =>
      obtain ⟨hfirst, hrest⟩ := List.pairwise_cons.mp hsorted
      unfold dueReadings
      split
      · rename_i hdue
        exact List.isChain_cons_cons.mpr ⟨apart_of_elapsed (hfirst t List.mem_cons_self) hdue,
          ih t hrest⟩
      · apply ih r
        exact hsorted.sublist ((List.sublist_cons_self t ts).cons_cons r)

theorem dueReadings_apart (autosync last : Int32) {ts : List Int64}
    (hsorted : ts.Pairwise (· ≤ ·)) : (dueReadings autosync last ts).IsChain (Apart autosync) := by
  induction ts with
  | nil => exact .nil
  | cons t ts ih =>
      unfold dueReadings
      split
      · exact dueReadings_after autosync t hsorted
      · exact ih (List.pairwise_cons.mp hsorted).2

theorem dueReadings_eq_nil_iff (autosync : Int32) (ts : List Int64) :
    dueReadings autosync 0 ts = [] ↔ ∀ t ∈ ts, t.toInt32 < autosync := by
  induction ts with
  | nil => simp [dueReadings]
  | cons t ts ih =>
      have hzero : t.toInt32 - 0 = t.toInt32 := by simp
      rw [dueReadings, List.forall_mem_cons, hzero]
      by_cases hdue : t.toInt32 ≥ autosync
      · have hnot : ¬ t.toInt32 < autosync := Int32.not_lt.mpr hdue
        simp [hdue, hnot]
      · have hlt : t.toInt32 < autosync := Int32.not_le.mp hdue
        simp [hdue, hlt, ih]

/-! ## What else is logged -/

/-- From one log to the other no save began. -/
def SavesNothing (log log' : List Call) : Prop :=
  ∃ calls, log' = log ++ calls ∧ calls.filterMap Call.saved = []

namespace SavesNothing

variable {log log' log'' : List Call}

theorem refl (log : List Call) : SavesNothing log log := ⟨[], (List.append_nil log).symm, rfl⟩

theorem trans (h : SavesNothing log log') (h' : SavesNothing log' log'') :
    SavesNothing log log'' := by
  obtain ⟨calls, hcalls, hnone⟩ := h
  obtain ⟨more, hmore, hnone'⟩ := h'
  refine ⟨calls ++ more, ?_, ?_⟩
  · rw [hmore, hcalls, List.append_assoc]
  · rw [List.filterMap_append, hnone, hnone', List.append_nil]

theorem call {s : Session} (h : SavesNothing log s.log) {c : Call} (hc : c.saved = none) :
    SavesNothing log (s.call c).log :=
  h.trans ⟨[c], rfl, by simp [hc]⟩

end SavesNothing

theorem Closes.saved {conn : Option Connection} {calls : List Call} (h : Closes conn calls) :
    calls.filterMap Call.saved = [] := by
  obtain ⟨r₁, r₂, status, rfl⟩ := h
  rfl

section
variable {o : Options} {b : Broker} {log : List Call}

theorem n2aAmqpConnect_savesNothing {s : Session} (h : SavesNothing log s.log) :
    SavesNothing log (n2aAmqpConnect o b s).2.log := by
  obtain ⟨closing, answers, hconnects⟩ := n2aAmqpConnect_connects o b s
  have hclosing : closing.filterMap Call.saved = [] := by
    rcases hconnects.closes with ⟨-, rfl⟩ | ⟨-, hcloses⟩
    · rfl
    · exact hcloses.saved
  have hanswers : answers.filterMap Call.saved = [] := by
    rw [List.filterMap_eq_nil_iff]
    intro c hc
    have hasks := hconnects.asks c hc
    cases c with
    | csync => cases hasks
    | _ => rfl
  have hlog := hconnects.log
  rw [List.append_assoc] at hlog
  refine h.trans ⟨_, hlog, ?_⟩
  rw [List.filterMap_append, List.filterMap_cons, List.filterMap_cons, hclosing, hanswers]
  rfl

theorem n2aAmqpDisconnect_savesNothing {s : Session} (h : SavesNothing log s.log) :
    SavesNothing log (n2aAmqpDisconnect b s).log := by
  obtain ⟨closing, hdisconnects⟩ := n2aAmqpDisconnect_disconnects b s
  refine h.trans ⟨closing, hdisconnects.log, ?_⟩
  rcases hdisconnects.closes with ⟨-, rfl⟩ | ⟨-, hcloses⟩
  · rfl
  · exact hcloses.saved

theorem savesNothing_kept (o : Options) (b : Broker) (log : List Call) :
    Session.Kept o b fun s => SavesNothing log s.log where
  note s c hc h := by
    apply h.call
    cases c with
    | gettimeofday | published | push => rfl
    | _ => cases hc
  connect s _ _ h := n2aAmqpConnect_savesNothing (h.call rfl)
  publish s ev _ h := h.call rfl
  disconnect s _ _ h := n2aAmqpDisconnect_savesNothing h

end

/-! ## One call of n2a_send_event -/

/-- What `n2a_fifo_check` reads from the clock when `n2a_send_event` is called. -/
def State.checkReading (o : Options) (w : Env) (s : State) : Int64 :=
  w.broker.gettimeofday (n2aAmqpCheck o w.broker s.amqp).2.log.length

/-- And whether it saves. -/
def State.SaveDue (o : Options) (w : Env) (s : State) : Prop :=
  (s.checkReading o w).toInt32 - s.fifoLastSync ≥ o.autosync

instance (o : Options) (w : Env) (s : State) : Decidable (s.SaveDue o w) :=
  inferInstanceAs (Decidable (_ ≥ _))

section
variable {o : Options} {w : Env} {log : List Call}

theorem flushLoop_fifoLastSync (left : Nat) (s : State) :
    (flushLoop o w left s).fifoLastSync = s.fifoLastSync := by
  induction left generalizing s with
  | zero => rfl
  | succ left ih =>
      unfold flushLoop
      split
      · rfl
      · rename_i pEvent f hshift
        cases hok : (n2aAmqpPublish o w.broker (eventOf f pEvent) s.amqp).1 with
        | false => simp only [hok, Bool.not_false, if_true]
        | true =>
            simp only [hok]
            exact ih _

theorem flushQueue_savesNothing (timestamp : Int32) {s : State} (hs : s.amqp.Sound)
    (h : SavesNothing log s.amqp.log) : SavesNothing log (flushQueue o w timestamp s).amqp.log ∧
      (flushQueue o w timestamp s).fifoLastSync = s.fifoLastSync := by
  unfold flushQueue
  simp only []
  split
  · have hstart : (s.amqp.call (.flushRound timestamp)).Sound := hs.call trivial
    refine ⟨?_, flushLoop_fifoLastSync _ _⟩
    exact (savesNothing_kept o w.broker log).flushLoop _
      (s := { s with amqp := s.amqp.call (.flushRound timestamp) }) hstart (h.call rfl)
  · exact ⟨h, rfl⟩

theorem saveQueue_cases (o : Options) (w : Env) (timestamp : Int32) (s : State) :
    (timestamp - s.fifoLastSync ≥ o.autosync ∧
      (saveQueue o w timestamp s).amqp.log = s.amqp.log ++ [.csync timestamp] ∧
      (saveQueue o w timestamp s).fifoLastSync = timestamp) ∨
    (¬ timestamp - s.fifoLastSync ≥ o.autosync ∧ saveQueue o w timestamp s = s) := by
  unfold saveQueue
  by_cases hdue : timestamp - s.fifoLastSync ≥ o.autosync
  · exact .inl ⟨hdue, by simp [hdue, Session.call], by simp [hdue]⟩
  · exact .inr ⟨hdue, by simp [hdue]⟩

theorem n2aSendEvent_savesNothing (ev : Event) {s : State} (hs : s.amqp.Sound) :
    let t := n2aFifoCheck o w { s with amqp := (n2aAmqpCheck o w.broker s.amqp).2 }
    SavesNothing t.amqp.log (n2aSendEvent o w ev s).2.amqp.log ∧
      (n2aSendEvent o w ev s).2.fifoLastSync = t.fifoLastSync := by
  have hsound := n2aFifoCheck_sound (o := o) (w := w)
    (s := { s with amqp := (n2aAmqpCheck o w.broker s.amqp).2 }) (n2aAmqpCheck_spec hs).2.1
  unfold n2aSendEvent
  simp only []
  generalize n2aFifoCheck o w { s with amqp := (n2aAmqpCheck o w.broker s.amqp).2 } = t at hsound
  have hpublish := (savesNothing_kept o w.broker t.amqp.log).amqpPublish ev hsound (.refl _)
  split
  · split
    · exact ⟨hpublish.call rfl, rfl⟩
    · exact ⟨hpublish, rfl⟩
  · exact ⟨SavesNothing.call (.refl _) rfl, rfl⟩

/-- The calls of one `n2a_send_event`: the clock is read once for the check, and what
it shows decides whether a save begins and is noted as the last one. -/
theorem n2aSendEvent_saves (ev : Event) {s : State} (hs : s.amqp.Sound) :
    (∃ before after, (n2aSendEvent o w ev s).2.amqp.log =
        s.amqp.log ++ before ++ .gettimeofday (s.checkReading o w) :: after ∧
      before.filterMap Call.saved = [] ∧
      after.filterMap Call.saved =
        if s.SaveDue o w then [(s.checkReading o w).toInt32] else []) ∧
    (n2aSendEvent o w ev s).2.fifoLastSync =
      if s.SaveDue o w then (s.checkReading o w).toInt32 else s.fifoLastSync := by
  obtain ⟨before, hbefore, hnone⟩ :=
    (savesNothing_kept o w.broker s.amqp.log).check (.refl s.amqp.log)
  let checked : State :=
    { s with amqp := (gettimeofday w.broker (n2aAmqpCheck o w.broker s.amqp).2).2 }
  have hchecked : checked.amqp.log =
      s.amqp.log ++ before ++ [.gettimeofday (s.checkReading o w)] := by
    rw [← hbefore]
    rfl
  have hsound : checked.amqp.Sound :=
    (n2aAmqpCheck_spec hs).2.1.call (c := .gettimeofday _) trivial
  obtain ⟨⟨flushed, hflushed, hnone'⟩, hlast⟩ := flushQueue_savesNothing (o := o) (w := w)
    (s.checkReading o w).toInt32 hsound (.refl _)
  obtain ⟨⟨sent, hsent, hnone''⟩, hlast'⟩ := n2aSendEvent_savesNothing (o := o) (w := w) ev hs
  change (n2aSendEvent o w ev s).2.amqp.log = (saveQueue o w (s.checkReading o w).toInt32
    (flushQueue o w (s.checkReading o w).toInt32 checked)).amqp.log ++ sent at hsent
  change (n2aSendEvent o w ev s).2.fifoLastSync = (saveQueue o w (s.checkReading o w).toInt32
    (flushQueue o w (s.checkReading o w).toInt32 checked)).fifoLastSync at hlast'
  rcases saveQueue_cases o w (s.checkReading o w).toInt32
    (flushQueue o w (s.checkReading o w).toInt32 checked) with ⟨hdue, hlog, hsync⟩ | ⟨hdue, hsame⟩
  · rw [hlast] at hdue
    have hsave : s.SaveDue o w := hdue
    rw [hlog, hflushed, hchecked] at hsent
    refine ⟨⟨before, flushed ++ .csync (s.checkReading o w).toInt32 :: sent, ?_, hnone, ?_⟩, ?_⟩
    · rw [hsent]
      simp
    · rw [if_pos hsave, List.filterMap_append, hnone', List.filterMap_cons, hnone'']
      rfl
    · rw [if_pos hsave, hlast', hsync]
  · rw [hlast] at hdue
    have hsave : ¬ s.SaveDue o w := hdue
    rw [hsame, hflushed, hchecked] at hsent
    refine ⟨⟨before, flushed ++ sent, ?_, hnone, ?_⟩, ?_⟩
    · rw [hsent]
      simp
    · rw [if_neg hsave, List.filterMap_append, hnone', hnone'']
      rfl
    · rw [if_neg hsave, hlast', hsame]
      exact hlast

end

/-! ## Runs -/

/-- The clock readings of the checks of a run. -/
def State.checkReadings (o : Options) (w : Env) (s : State) : List Event → List Int64
  | [] => []
  | ev :: evs =>
      s.checkReading o w :: State.checkReadings o w (n2aSendEvent o w ev s).2 evs

/-- The clock readings of the checks that called `n2a_csync`, once for each call. -/
def State.syncReadings (o : Options) (w : Env) (s : State) : List Event → List Int64
  | [] => []
  | ev :: evs =>
      let s' := (n2aSendEvent o w ev s).2
      let calls := (s'.amqp.log.drop s.amqp.log.length).filterMap Call.saved
      (calls.map fun _ => s.checkReading o w) ++ State.syncReadings o w s' evs

/-- What the options promise of a run: no automatic save if `autosync` is negative,
else no two of them closer together than that. -/
def State.KeepsAutosync (o : Options) (w : Env) (s : State) (evs : List Event) : Prop :=
  (o.autosync < 0 → ∀ timestamp,
    .csync timestamp ∉ (s.run o w (evs.map .sendEvent)).amqp.log) ∧
  (¬ o.autosync < 0 → (s.syncReadings o w evs).IsChain (Apart o.autosync))

section
variable {o : Options} {w : Env}

/-- The run's log: what it saved and when, and the readings it took in order. -/
theorem run_saves (evs : List Event) {s : State} (hs : s.amqp.Sound) :
    s.syncReadings o w evs = dueReadings o.autosync s.fifoLastSync (s.checkReadings o w evs) ∧
    ∃ calls, (s.run o w (evs.map .sendEvent)).amqp.log = s.amqp.log ++ calls ∧
      calls.filterMap Call.saved = (s.syncReadings o w evs).map Int64.toInt32 ∧
      (s.checkReadings o w evs).Sublist (calls.filterMap Call.reading) := by
  induction evs generalizing s with
  | nil => exact ⟨rfl, [], (List.append_nil _).symm, rfl, .slnil⟩
  | cons ev evs ih =>
      obtain ⟨⟨before, after, hlog, hbefore, hafter⟩, hlast⟩ :=
        n2aSendEvent_saves (o := o) (w := w) ev hs
      obtain ⟨hdue, calls, hcalls, hsaved, hreadings⟩ := ih (n2aSendEvent_sound (w := w) ev hs)
      have hnew : (n2aSendEvent o w ev s).2.amqp.log.drop s.amqp.log.length =
          before ++ .gettimeofday (s.checkReading o w) :: after := by
        rw [hlog, List.append_assoc, List.drop_left]
      have hsaves : ((n2aSendEvent o w ev s).2.amqp.log.drop s.amqp.log.length).filterMap
          Call.saved = if s.SaveDue o w then [(s.checkReading o w).toInt32] else [] := by
        rw [hnew, List.filterMap_append, hbefore, List.filterMap_cons]
        exact hafter
      have hsync : s.syncReadings o w (ev :: evs) =
          (if s.SaveDue o w then [s.checkReading o w] else []) ++
            (n2aSendEvent o w ev s).2.syncReadings o w evs := by
        rw [State.syncReadings, hsaves]
        split <;> rfl
      refine ⟨?_, before ++ .gettimeofday (s.checkReading o w) :: after ++ calls, ?_, ?_, ?_⟩
      · rw [hsync, hdue, hlast, State.checkReadings, dueReadings]
        by_cases hsave : s.SaveDue o w
        · rw [if_pos hsave, if_pos hsave, if_pos (show _ ≥ _ from hsave)]
          rfl
        · rw [if_neg hsave, if_neg hsave, if_neg (show ¬ _ ≥ _ from hsave)]
          rfl
      · change (State.run o w (n2aSendEvent o w ev s).2 (evs.map .sendEvent)).amqp.log = _
        rw [hcalls, hlog]
        simp
      · rw [hsync, List.filterMap_append, hsaved, List.map_append, ← hnew, hsaves]
        split <;> rfl
      · rw [State.checkReadings, List.append_assoc, List.filterMap_append]
        have hlater : (s.checkReading o w :: (n2aSendEvent o w ev s).2.checkReadings o w evs).Sublist
            ((.gettimeofday (s.checkReading o w) :: after ++ calls).filterMap Call.reading) := by
          rw [List.cons_append, List.filterMap_cons, List.filterMap_append]
          exact (hreadings.trans (List.sublist_append_right _ _)).cons_cons _
        exact hlater.trans (List.sublist_append_right _ _)

/-- In a run whose clock does not go back, saves come as the options say exactly if
`autosync` is not negative, or every check reads a time, as an `int`, below it. -/
theorem State.run_keepsAutosync_iff (o : Options) (w : Env) (f : Fifo) (evs : List Event)
    (hclock : (((loaded f).run o w (evs.map .sendEvent)).amqp.log.filterMap
      Call.reading).Pairwise (· ≤ ·)) :
    (loaded f).KeepsAutosync o w evs ↔
      ¬ o.autosync < 0 ∨ ∀ t ∈ (loaded f).checkReadings o w evs, t.toInt32 < o.autosync := by
  obtain ⟨hdue, calls, hcalls, hsaved, hreadings⟩ := run_saves (o := o) (w := w) evs
    (s := loaded f) Session.loaded_sound
  have hlog : ((loaded f).run o w (evs.map .sendEvent)).amqp.log = calls := hcalls
  rw [hlog] at hclock
  have hsorted := hclock.sublist hreadings
  have hstart : (loaded f).fifoLastSync = 0 := rfl
  rw [hstart] at hdue
  rw [KeepsAutosync, hlog, ← dueReadings_eq_nil_iff, ← hdue]
  by_cases hneg : o.autosync < 0
  · simp only [hneg, true_imp_iff, not_true_eq_false, false_imp_iff, and_true, false_or]
    have hmem : (∀ timestamp, .csync timestamp ∉ calls) ↔ calls.filterMap Call.saved = [] := by
      rw [List.filterMap_eq_nil_iff]
      constructor
      · intro hnone c hc
        cases c with
        | csync timestamp => exact absurd hc (hnone timestamp)
        | _ => rfl
      · intro hnone timestamp hc
        cases hnone _ hc
    rw [hmem, hsaved, List.map_eq_nil_iff]
  · simp only [hneg, false_imp_iff, true_and, not_false_eq_true, true_imp_iff, true_or, iff_true]
    rw [hdue]
    exact dueReadings_apart o.autosync 0 hsorted

/-- Three events in the same second. -/
theorem State.run_keepsAutosync_iff_default :
    (loaded (.created 10 ⟨none, []⟩)).KeepsAutosync Options.default .reliable
      [⟨.lit "a", .lit "1"⟩, ⟨.lit "b", .lit "2"⟩, ⟨.lit "c", .lit "3"⟩] :=
  (run_keepsAutosync_iff _ _ _ _ (by decide +kernel)).mpr (.inl (by decide))

/-- With `autosync=-1` the first event already makes `n2a_fifo_check` save. -/
theorem State.disabled_autosync_saves :
    ¬ (loaded (.created 10 ⟨none, []⟩)).KeepsAutosync { Options.default with autosync := -1 }
      .reliable [⟨.lit "a", .lit "1"⟩] := by
  intro hkeeps
  have hsaved : 1000 ∈ (((loaded (.created 10 ⟨none, []⟩)).run
      { Options.default with autosync := -1 } .reliable
      [.sendEvent ⟨.lit "a", .lit "1"⟩]).amqp.log.filterMap Call.saved) := by
    decide +kernel
  obtain ⟨c, hc, hcall⟩ := List.mem_filterMap.mp hsaved
  cases c with
  | csync timestamp => exact hkeeps.1 (by decide) timestamp hc
  | _ => cases hcall

end

end Neb2Amqp
