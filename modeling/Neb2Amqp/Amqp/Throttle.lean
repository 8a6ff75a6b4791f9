import Mathlib.Data.Bool.AllAny
import Neb2Amqp.Amqp.Autosync
import Neb2Amqp.Amqp.Calls
import Neb2Amqp.Library.Marks

/-!
# How often connecting is tried

`n2a_amqp_check` may run several times within one `n2a_send_event`, with a disconnect
in between. The time of the last attempt is noted by `n2a_amqp_connect` alone, so that
attempts keep their distance over a whole run.
-/

namespace Neb2Amqp

open CLib

/-! ## Readings of the clock -/

/-- What the clock showed last. -/
def lastReading (log : List Call) : Int64 := (log.filterMap Call.reading).getLast?.getD 0

/-- The clock shows positive times and does not go back. -/
structure Clocked (log : List Call) : Prop where
  sorted : (log.filterMap Call.reading).Pairwise (· ≤ ·)
  positive : ∀ t ∈ log.filterMap Call.reading, 0 < t.toInt

theorem lastReading_snoc (log : List Call) (t : Int64) :
    lastReading (log ++ [.gettimeofday t]) = t := by
  simp [lastReading, Call.reading]

theorem lastReading_append {log calls : List Call} (hcalls : ∀ c ∈ calls, c.reading = none) :
    lastReading (log ++ calls) = lastReading log := by
  rw [lastReading, List.filterMap_append, List.filterMap_eq_nil_iff.mpr hcalls, List.append_nil]
  rfl

namespace Clocked

variable {log more : List Call}

theorem of_append (h : Clocked (log ++ more)) : Clocked log := by
  have hsub : (log.filterMap Call.reading).Sublist ((log ++ more).filterMap Call.reading) := by
    rw [List.filterMap_append]
    exact List.sublist_append_left _ _
  exact ⟨h.sorted.sublist hsub, fun t ht => h.positive t (hsub.mem ht)⟩

theorem le (h : Clocked (log ++ more)) {t : Int64} (ht : Call.gettimeofday t ∈ more) :
    lastReading log ≤ t := by
  have hmem : t ∈ more.filterMap Call.reading := List.mem_filterMap.mpr ⟨_, ht, rfl⟩
  have hsorted := h.sorted
  rw [List.filterMap_append] at hsorted
  unfold lastReading
  cases hlast : (log.filterMap Call.reading).getLast? with
  | none =>
      have hpos : 0 < t.toInt := by
        apply h.positive
        rw [List.filterMap_append]
        exact List.mem_append_right _ hmem
      exact Int64.le_iff_toInt_le.mpr (Int.le_of_lt hpos)
  | some r =>
      exact (List.pairwise_append.mp hsorted).2.2 r (List.mem_of_getLast? hlast) t hmem

end Clocked

/-! ## Attempts to connect -/

def Call.connects : Call → Bool
  | .newConnection _ => true
  | _ => false

/-- From one attempt to the next, as the clock was read for each. -/
def AttemptsApart (o : Options) (log : List Call) : Prop :=
  Spaced Call.connects
    (fun before c between =>
      Apart o.amqpWaitTime (lastReading before) (lastReading (before ++ c :: between))) log

/-- The readings fit an `int` besides. -/
structure ClockedInt (log : List Call) : Prop extends Clocked log where
  range : ∀ t ∈ log.filterMap Call.reading, t.toInt < 2 ^ 31

theorem ClockedInt.of_append {log more : List Call} (h : ClockedInt (log ++ more)) :
    ClockedInt log := by
  refine ⟨h.toClocked.of_append, fun t ht => h.range t ?_⟩
  rw [List.filterMap_append]
  exact List.mem_append_left _ ht

theorem Call.connects_of_asks {conn : Option Connection} {c : Call} (h : c.Asks conn) :
    c.connects = false ∧ c.reading = none := by
  cases c with
  | socketOpen | login | channelOpen | exchangeDeclare | getRpcReply => exact ⟨rfl, rfl⟩
  | _ => cases h

theorem Closes.unmarked {conn : Option Connection} {calls : List Call} (h : Closes conn calls) :
    ∀ c ∈ calls, c.connects = false ∧ c.reading = none := by
  obtain ⟨r₁, r₂, status, rfl⟩ := h
  simp [Call.connects, Call.reading]

/-- What an attempt adds to the log: the reading that made it due, and the one it is noted
with, which is the last before the new object. -/
structure Session.Attempts (b : Broker) (s s' : Session) (opening : List Call) (conn : Connection)
    (answers : List Call) : Prop where
  log : s'.log = s.log ++ opening ++ [.newConnection conn] ++ answers
  before : ∀ c ∈ opening, c.connects = false
  after : ∀ c ∈ answers, c.connects = false
  due : Call.gettimeofday (b.gettimeofday s.log.length) ∈ opening
  noted : Call.gettimeofday (lastReading (s.log ++ opening)) ∈ opening
  later : Clocked (s.log ++ opening) →
    b.gettimeofday s.log.length ≤ lastReading (s.log ++ opening)
  lastConnect : s'.amqpLastConnect = (lastReading (s.log ++ opening)).toInt32

theorem n2aAmqpConnect_attempts (o : Options) (b : Broker) (s : Session) :
    ∃ opening conn answers,
      s.Attempts b (n2aAmqpConnect o b (gettimeofday b s).2).2 opening conn answers := by
  obtain ⟨closing, answers, hconnects⟩ := n2aAmqpConnect_connects o b (gettimeofday b s).2
  generalize (n2aAmqpConnect o b (gettimeofday b s).2).2 = s' at hconnects
  generalize ht₁ : b.gettimeofday s.log.length = t₁
  generalize ht₂ : b.gettimeofday (gettimeofday b s).2.log.length = t₂
  have hclosing : ∀ c ∈ closing, c.connects = false ∧ c.reading = none := by
    rcases hconnects.closes with ⟨-, rfl⟩ | ⟨-, hcloses⟩
    · exact fun c hc => absurd hc List.not_mem_nil
    · exact hcloses.unmarked
  have hlast : lastReading (s.log ++ ([.gettimeofday t₁, .gettimeofday t₂] ++ closing)) = t₂ := by
    have hsplit : s.log ++ ([.gettimeofday t₁, .gettimeofday t₂] ++ closing) =
        s.log ++ [.gettimeofday t₁] ++ [.gettimeofday t₂] ++ closing := by
      simp
    rw [hsplit, lastReading_append fun c hc => (hclosing c hc).2, lastReading_snoc]
  refine ⟨[.gettimeofday t₁, .gettimeofday t₂] ++ closing,
    (gettimeofday b s).2.log.length + 1 + closing.length, answers, ?_, ?_, ?_, ?_, ?_, ?_, ?_⟩
  · rw [hconnects.log, ht₂]
    simp only [gettimeofday, Session.call, ht₁, List.append_assoc, List.cons_append,
      List.nil_append]
  · intro c hc
    rcases List.mem_append.mp hc with hclock | hclose
    · rcases List.mem_pair.mp hclock with rfl | rfl <;> rfl
    · exact (hclosing c hclose).1
  · exact fun c hc => (Call.connects_of_asks (hconnects.asks c hc)).1
  · simp [ht₁]
  · rw [hlast]
    simp
  · intro hclock
    have hsplit : s.log ++ ([.gettimeofday t₁, .gettimeofday t₂] ++ closing) =
        (s.log ++ [.gettimeofday t₁]) ++ .gettimeofday t₂ :: closing := by
      simp
    rw [hlast, ht₁]
    rw [hsplit] at hclock
    have hle := hclock.le List.mem_cons_self
    rw [lastReading_snoc] at hle
    exact hle
  · rw [hlast, hconnects.lastConnect, ht₂]

/-- `amqp_last_connect` is the time of the last attempt, which is not 0. -/
structure Session.Throttled (o : Options) (s : Session) : Prop where
  spaced : ClockedInt s.log → AttemptsApart o s.log
  timer : ClockedInt s.log → ∀ before c after, LastMark Call.connects s.log before c after →
    s.amqpLastConnect = (lastReading before).toInt32 ∧ s.amqpLastConnect ≠ 0

namespace Session.Throttled

variable {o : Options} {s s' : Session}

theorem loaded : Throttled o .loaded := by
  refine ⟨fun _ => .nil, fun _ before c after hlast => ?_⟩
  exact absurd hlast.split (by simp [Session.loaded])

theorem append (h : Throttled o s) {calls : List Call} (hlog : s'.log = s.log ++ calls)
    (hcalls : ∀ c ∈ calls, c.connects = false) (htimer : s'.amqpLastConnect = s.amqpLastConnect) :
    Throttled o s' := by
  constructor
  · intro hclock
    rw [hlog] at hclock ⊢
    exact Spaced.append (h.spaced hclock.of_append) hcalls
  · intro hclock before c after hlast
    rw [hlog] at hclock hlast
    obtain ⟨after', -, hlast'⟩ := hlast.of_append hcalls
    rw [htimer]
    exact h.timer hclock.of_append before c after' hlast'

variable {b : Broker}

theorem connect (h : Throttled o s) (hdue : s.Due o b) :
    Throttled o (n2aAmqpConnect o b (gettimeofday b s).2).2 := by
  obtain ⟨opening, conn, answers, hattempts⟩ := n2aAmqpConnect_attempts o b s
  generalize (n2aAmqpConnect o b (gettimeofday b s).2).2 = s' at hattempts
  have hlog := hattempts.log
  constructor
  · intro hclock
    rw [hlog] at hclock ⊢
    have hbefore := hclock.of_append.of_append
    have hlater := Int64.le_iff_toInt_le.mp (hattempts.later hbefore.toClocked)
    have hspaced : AttemptsApart o (s.log ++ opening) :=
      Spaced.append (h.spaced hbefore.of_append) hattempts.before
    have hattempt : AttemptsApart o (s.log ++ opening ++ [.newConnection conn]) := by
      apply Spaced.snoc hspaced
      intro before c between hlast
      obtain ⟨after, -, hlast'⟩ := hlast.of_append hattempts.before
      obtain ⟨htimer, hzero⟩ := h.timer hbefore.of_append before c after hlast'
      have helapsed : (b.gettimeofday s.log.length).toInt32 - (lastReading before).toInt32 ≥
          o.amqpWaitTime := by
        rw [← htimer]
        exact hdue.resolve_left hzero
      rw [hlast'.split, List.append_assoc] at hbefore
      have hle : lastReading before ≤ b.gettimeofday s.log.length :=
        hbefore.toClocked.le (List.mem_append_right _ hattempts.due)
      have hapart := apart_of_elapsed hle helapsed
      rw [← hlast.split]
      unfold Apart at hapart ⊢
      omega
    exact Spaced.append hattempt hattempts.after
  · intro hclock before c after hlast
    rw [hlog] at hclock hlast
    obtain ⟨after', -, hlast'⟩ := hlast.of_append hattempts.after
    obtain ⟨rfl, -, -⟩ := hlast'.of_snoc rfl
    have hmem : lastReading (s.log ++ opening) ∈
        (s.log ++ opening ++ [Call.newConnection conn] ++ answers).filterMap Call.reading :=
      List.mem_filterMap.mpr ⟨.gettimeofday _, by simp [hattempts.noted], rfl⟩
    have hpos := hclock.positive _ hmem
    have hrange := hclock.range _ hmem
    refine ⟨hattempts.lastConnect, fun hzero => ?_⟩
    have hint := congrArg Int32.toInt hzero
    rw [hattempts.lastConnect, (toInt_toInt32_iff _).mpr ⟨by omega, hrange⟩, Int32.toInt_zero] at hint
    omega

theorem disconnect (h : Throttled o s) : Throttled o (n2aAmqpDisconnect b s) := by
  obtain ⟨closing, hdisconnects⟩ := n2aAmqpDisconnect_disconnects b s
  apply h.append hdisconnects.log _ hdisconnects.lastConnect
  rcases hdisconnects.closes with ⟨-, rfl⟩ | ⟨-, hcloses⟩
  · exact fun c hc => absurd hc List.not_mem_nil
  · exact fun c hc => (hcloses.unmarked c hc).1

theorem call (h : Throttled o s) {c : Call} (hc : c.connects = false) : Throttled o (s.call c) :=
  h.append (show (s.call c).log = s.log ++ [c] from rfl) (List.forall_mem_singleton.mpr hc) rfl

theorem of_same (h : Throttled o s) (hlog : s'.log = s.log)
    (htimer : s'.amqpLastConnect = s.amqpLastConnect) : Throttled o s' :=
  h.append (hlog.trans (List.append_nil _).symm) (fun _ hc => absurd hc List.not_mem_nil) htimer

theorem kept (o : Options) (b : Broker) : Session.Kept o b (Throttled o) where
  note s c hc h := by
    apply h.call
    cases c with
    | gettimeofday | published | push => rfl
    | _ => cases hc
  connect s _ hdue h := h.connect hdue
  publish s ev _ h := h.call rfl
  disconnect s _ _ h := h.disconnect

end Session.Throttled

/-! ## Runs -/

variable {o : Options} {w : Env}

theorem State.step_throttled {s : State} (hs : s.amqp.Sound) (h : s.amqp.Throttled o) (op : Op) :
    (s.step o w op).amqp.Throttled o := by
  have hkept := Session.Throttled.kept o w.broker
  cases op with
  | sendEvent ev =>
      apply hkept.sendEvent _ (fun s timestamp h => h.call rfl) ev hs h
      apply hkept.flushQueue
      · exact fun s timestamp h => h.call rfl
      · exact fun s timestamp h => h.of_same rfl rfl
  | amqpCheck => exact hkept.check h
  | amqpDisconnect => exact h.disconnect
  | toggleBlackout =>
      change Session.Throttled o (n2aToggleBlackout w.broker s.amqp).2
      rcases n2aToggleBlackout_cases w.broker s.amqp with ⟨-, htoggle⟩ | ⟨-, htoggle⟩
      · rw [htoggle]
        exact (h.disconnect (b := w.broker)).of_same rfl rfl
      · rw [htoggle]
        exact h.of_same rfl rfl

/-- Two consecutive attempts to connect are `amqp_wait_time` seconds apart or more, in
any run whose clock shows positive times of the range of `int` and does not go back.
What the clock showed is what `amqp_last_connect` holds from there on. -/
theorem State.run_throttled (o : Options) (w : Env) (f : Fifo) (ops : List Op)
    (hclock : ClockedInt ((loaded f).run o w ops).amqp.log) :
    AttemptsApart o ((loaded f).run o w ops).amqp.log ∧
      ∀ before c after,
        LastMark Call.connects ((loaded f).run o w ops).amqp.log before c after →
        ((loaded f).run o w ops).amqp.amqpLastConnect = (lastReading before).toInt32 := by
  have hrun : ∀ {s : State}, s.amqp.Sound → s.amqp.Throttled o →
      (s.run o w ops).amqp.Throttled o := by
    clear hclock
    induction ops with
    | nil => exact fun _ h => h
    | cons op ops ih => exact fun hs h => ih (step_sound hs op) (step_throttled hs h op)
  have h := hrun (s := loaded f) Session.loaded_sound .loaded
  exact ⟨h.spaced hclock, fun before c after hlast => (h.timer hclock before c after hlast).1⟩

/-- A broker that refuses every connection, and a clock that moves on 10 s with every call. -/
def Env.refusingSlowly : Env :=
  { Env.reliable with
    broker := { Env.reliable.broker with
      gettimeofday := fun n => .ofNat (1000 + 10 * n)
      socketOpen := fun _ => -1 } }

theorem State.run_throttled_refused :
    AttemptsApart Options.default ((loaded (.created 10 ⟨none, []⟩)).run Options.default
      .refusingSlowly [.amqpCheck, .toggleBlackout, .toggleBlackout, .amqpCheck]).amqp.log :=
  (run_throttled Options.default .refusingSlowly (.created 10 ⟨none, []⟩)
    [.amqpCheck, .toggleBlackout, .toggleBlackout, .amqpCheck]
    ⟨⟨by decide +kernel, List.all_iff_forall_prop.mp (by decide +kernel)⟩,
      List.all_iff_forall_prop.mp (by decide +kernel)⟩).1

end Neb2Amqp
