import Neb2Amqp.Amqp.State

/-!
# The connection flags

At every operation boundary `amqp_connected` goes with a live connection, no
recorded error and no blackout. So `amqp_basic_publish` is only called where it
may be.
-/

namespace Neb2Amqp

open CLib

/-- The call neither publishes nor queues anything. -/
def Call.quiet : Call → Bool
  | .basicPublish .. | .published .. | .push .. => false
  | _ => true

/-- What a call of the module may look like. -/
def Call.Proper : Call → Prop
  | .basicPublish conn _ _ blackout _ => conn ≠ none ∧ blackout = false
  | .published attempt result => result = true ↔ ∃ status, attempt = some status ∧ 0 ≤ status
  | _ => True

theorem Call.proper_of_quiet {c : Call} (h : c.quiet = true) : c.Proper := by
  cases c with
  | basicPublish | published | push => cases h
  | _ => trivial

/-! ## Quiet functions -/

/-- Between the two states only quiet calls were made. -/
structure Quietly (s s' : Session) : Prop where
  blackout : s'.blackout = s.blackout
  log : ∃ calls, s'.log = s.log ++ calls ∧ ∀ c ∈ calls, c.quiet = true

namespace Quietly

variable {s s' s'' : Session}

theorem of_same_log (hblackout : s'.blackout = s.blackout) (hlog : s'.log = s.log) :
    Quietly s s' :=
  ⟨hblackout, [], by rw [hlog, List.append_nil], by simp⟩

theorem refl (s : Session) : Quietly s s := of_same_log rfl rfl

theorem trans (h : Quietly s s') (h' : Quietly s' s'') : Quietly s s'' := by
  obtain ⟨calls, hcalls, hquiet⟩ := h.log
  obtain ⟨more, hmore, hquiet'⟩ := h'.log
  refine ⟨h'.blackout.trans h.blackout, calls ++ more, ?_, fun c hc => ?_⟩
  · rw [hmore, hcalls, List.append_assoc]
  · exact (List.mem_append.mp hc).elim (hquiet c) (hquiet' c)

theorem of_call {c : Call} (hblackout : s'.blackout = s.blackout) (hlog : s'.log = s.log ++ [c])
    (hc : c.quiet = true) : Quietly s s' :=
  ⟨hblackout, [c], hlog, by simpa using hc⟩

theorem call (s : Session) {c : Call} (hc : c.quiet = true) : Quietly s (s.call c) :=
  of_call rfl rfl hc

theorem onError {r : Int32 × Session} (h : Quietly s r.2) : Quietly s (n2aOnError r) := by
  apply h.trans
  unfold n2aOnError
  split
  · exact of_same_log rfl rfl
  · exact refl _

theorem onAmqpError {r : ReplyType × Session} (h : Quietly s r.2) :
    Quietly s (n2aOnAmqpError r) := by
  apply h.trans
  unfold n2aOnAmqpError
  split
  · exact refl _
  all_goals exact of_same_log rfl rfl

theorem unlessErrors (h : Quietly s s') {request : Session → Session}
    (hrequest : ∀ t, Quietly t (request t)) : Quietly s (s'.unlessErrors request) := by
  unfold Session.unlessErrors
  split
  · exact h.trans (hrequest s')
  · exact h

end Quietly

theorem n2aOnError_conn (r : Int32 × Session) : (n2aOnError r).conn = r.2.conn := by
  unfold n2aOnError
  split <;> rfl

theorem n2aOnAmqpError_conn (r : ReplyType × Session) : (n2aOnAmqpError r).conn = r.2.conn := by
  unfold n2aOnAmqpError
  split <;> rfl

namespace Session

variable (o : Options) (b : Broker) (s : Session)

theorem unlessErrors_conn {request : Session → Session}
    (hrequest : ∀ t, (request t).conn = t.conn) : (s.unlessErrors request).conn = s.conn := by
  unfold unlessErrors
  split
  · exact hrequest s
  · rfl

theorem closeOld_quietly : Quietly s (s.closeOld b) := by
  unfold closeOld
  split
  · exact ((Quietly.call _ rfl).trans (.call _ rfl)).trans (.call _ rfl)
  · exact .refl s

theorem renewed_quietly : Quietly s (s.renewed b) := by
  have hclock : Quietly s { s with
      amqpErrors := false
      amqpLastConnect := (b.gettimeofday s.log.length).toInt32
      log := s.log ++ [.gettimeofday (b.gettimeofday s.log.length)] } :=
    .of_call (c := .gettimeofday _) rfl rfl rfl
  have hclosed := hclock.trans (closeOld_quietly b _)
  exact hclosed.trans (.of_call (c := .newConnection _) rfl rfl rfl)

theorem renewed_conn : (s.renewed b).conn ≠ none := by simp [renewed]

theorem opened_quietly : Quietly s (s.opened o b) := by
  unfold opened
  refine (((Quietly.onError (.call _ rfl)).unlessErrors fun t => ?_).unlessErrors
    fun t => ?_).unlessErrors fun t => ?_
  · exact .onAmqpError (.call _ rfl)
  · exact .onAmqpError ((Quietly.call _ rfl).trans (.call _ rfl))
  · split
    · exact .onAmqpError ((Quietly.call _ rfl).trans (.call _ rfl))
    · exact .refl t

theorem opened_conn : (s.opened o b).conn = s.conn := by
  unfold opened
  refine (unlessErrors_conn _ fun t => ?_).trans ?_
  · split
    · exact n2aOnAmqpError_conn _
    · rfl
  apply (unlessErrors_conn _ fun t => n2aOnAmqpError_conn _).trans
  exact (unlessErrors_conn _ fun t => n2aOnAmqpError_conn _).trans (n2aOnError_conn _)

theorem concluded_quietly : Quietly s s.concluded := by
  unfold concluded
  split <;> exact .of_same_log rfl rfl

theorem concluded_conn : s.concluded.conn = s.conn := by
  unfold concluded
  split <;> rfl

/-- A connection is only taken over when nothing went wrong. -/
theorem concluded_errors (h : s.concluded.amqpConnected = true) :
    s.concluded.amqpErrors = false := by
  unfold concluded at h ⊢
  cases herrors : s.amqpErrors with
  | false => simp
  | true => simp [herrors] at h

end Session

variable {o : Options} {b : Broker}

theorem n2aAmqpConnect_quietly (s : Session) : Quietly s (n2aAmqpConnect o b s).2 :=
  ((s.renewed_quietly b).trans (Session.opened_quietly o b _)).trans (Session.concluded_quietly _)

theorem n2aAmqpConnect_conn (s : Session) : (n2aAmqpConnect o b s).2.conn ≠ none := by
  have hopened : ((s.renewed b).opened o b).conn ≠ none := by
    rw [Session.opened_conn]
    exact s.renewed_conn b
  exact (Session.concluded_conn _).symm ▸ hopened

theorem Session.closeCurrent_quietly (s : Session) : Quietly s (s.closeCurrent b) := by
  have hchannel : Quietly s (n2aOnAmqpError (amqpChannelClose b s)) := .onAmqpError (.call s rfl)
  exact .onError (.trans (.onAmqpError (hchannel.trans (.call _ rfl))) (.call _ rfl))

theorem n2aAmqpDisconnect_quietly (s : Session) : Quietly s (n2aAmqpDisconnect b s) := by
  have hstart : Quietly s { s with amqpErrors := false } := .of_same_log rfl rfl
  have hclosed : Quietly s (if s.amqpConnected then
      Session.closeCurrent b { s with amqpErrors := false } else { s with amqpErrors := false }) := by
    split
    · exact hstart.trans (Session.closeCurrent_quietly _)
    · exact hstart
  exact hclosed.trans (.of_same_log rfl rfl)

/-! ## The invariant -/

namespace Session

/-- Every logged call is one the module may make. -/
def Proper (s : Session) : Prop := ∀ c ∈ s.log, c.Proper

theorem Proper.quietly {s s' : Session} (hs : s.Proper) (h : Quietly s s') : s'.Proper := by
  obtain ⟨calls, hcalls, hquiet⟩ := h.log
  intro c hc
  rw [hcalls] at hc
  exact (List.mem_append.mp hc).elim (hs c) (fun hmem => Call.proper_of_quiet (hquiet c hmem))

structure Sound (s : Session) : Prop where
  connected : s.amqpConnected = true → s.conn ≠ none ∧ s.amqpErrors = false ∧ s.blackout = false
  proper : s.Proper

theorem loaded_sound : loaded.Sound := ⟨fun h => (nomatch h), fun _ hc => (nomatch hc)⟩

theorem Sound.call {s : Session} (hs : s.Sound) {c : Call} (hc : c.Proper) : (s.call c).Sound := by
  refine ⟨hs.connected, fun c' hc' => ?_⟩
  rcases List.mem_append.mp hc' with h | h
  · exact hs.proper c' h
  · rw [List.mem_singleton.mp h]
    exact hc

end Session

variable {s : Session}

theorem n2aAmqpConnect_sound (hs : s.Sound) (hblackout : s.blackout = false) :
    (n2aAmqpConnect o b s).2.Sound :=
  ⟨fun h => ⟨n2aAmqpConnect_conn s, Session.concluded_errors _ h,
      (n2aAmqpConnect_quietly s).blackout.trans hblackout⟩,
    hs.proper.quietly (n2aAmqpConnect_quietly s)⟩

theorem n2aAmqpDisconnect_sound (hs : s.Proper) : (n2aAmqpDisconnect b s).Sound :=
  ⟨fun h => (nomatch h), hs.quietly (n2aAmqpDisconnect_quietly s)⟩

/-- By the clock, `n2a_amqp_check` tries to connect. -/
def Session.Due (o : Options) (b : Broker) (s : Session) : Prop :=
  s.amqpLastConnect = 0 ∨
    (b.gettimeofday s.log.length).toInt32 - s.amqpLastConnect ≥ o.amqpWaitTime

theorem n2aAmqpCheck_cases (o : Options) (b : Broker) (s : Session) :
    (s.blackout = true ∧ n2aAmqpCheck o b s = (false, s)) ∨
    (s.blackout = false ∧ s.amqpConnected = true ∧ n2aAmqpCheck o b s = (true, s)) ∨
    (s.blackout = false ∧ s.amqpConnected = false ∧
      (n2aAmqpCheck o b s = (false, (gettimeofday b s).2) ∨
        s.Due o b ∧ n2aAmqpCheck o b s = n2aAmqpConnect o b (gettimeofday b s).2)) := by
  obtain ⟨amqpErrors, amqpLastConnect, fifoLastFlush, amqpConnected, blackout, conn, log⟩ := s
  cases blackout with
  | true => exact Or.inl ⟨rfl, rfl⟩
  | false =>
      apply Or.inr
      cases amqpConnected with
      | true => exact Or.inl ⟨rfl, rfl, rfl⟩
      | false =>
          refine Or.inr ⟨rfl, rfl, ?_⟩
          by_cases hdue : amqpLastConnect = 0 ∨ (!false) = true ∧
              (b.gettimeofday log.length).toInt32 - amqpLastConnect ≥ o.amqpWaitTime
          · refine Or.inr ⟨hdue.imp_right And.right, ?_⟩
            simp only [n2aAmqpCheck, gettimeofday]
            exact if_pos hdue ▸ rfl
          · apply Or.inl
            simp only [n2aAmqpCheck, gettimeofday]
            exact if_neg hdue ▸ rfl

theorem n2aAmqpCheck_spec (hs : s.Sound) :
    Quietly s (n2aAmqpCheck o b s).2 ∧ (n2aAmqpCheck o b s).2.Sound ∧
      (n2aAmqpCheck o b s).1 = (n2aAmqpCheck o b s).2.amqpConnected := by
  have hclock : Quietly s (gettimeofday b s).2 := .call s (c := .gettimeofday _) rfl
  have hidle : (gettimeofday b s).2.Sound := hs.call (c := .gettimeofday _) trivial
  rcases n2aAmqpCheck_cases o b s with ⟨hblackout, hcheck⟩ | ⟨-, hconnected, hcheck⟩ |
    ⟨hblackout, hconnected, hcheck | ⟨-, hcheck⟩⟩
  · rw [hcheck]
    refine ⟨.refl s, hs, ?_⟩
    cases hconnected : s.amqpConnected with
    | false => rfl
    | true => exact absurd ((hs.connected hconnected).2.2.symm.trans hblackout) (by simp)
  · rw [hcheck]
    exact ⟨.refl s, hs, hconnected.symm⟩
  · rw [hcheck]
    exact ⟨hclock, hidle, hconnected.symm⟩
  · rw [hcheck]
    exact ⟨hclock.trans (n2aAmqpConnect_quietly _), n2aAmqpConnect_sound hidle hblackout, rfl⟩

theorem n2aToggleBlackout_sound (hs : s.Sound) : (n2aToggleBlackout b s).2.Sound := by
  unfold n2aToggleBlackout
  cases hblackout : s.blackout with
  | false => exact ⟨fun h => (nomatch h), (n2aAmqpDisconnect_sound hs.proper).proper⟩
  | true =>
      refine ⟨fun hconnected => ?_, hs.proper⟩
      exact absurd ((hs.connected hconnected).2.2.symm.trans hblackout) (by simp)

/-- The log entry of a publication in state `s`. -/
def publication (o : Options) (b : Broker) (ev : Event) (s : Session) : Call :=
  .basicPublish s.conn o.exchangeName ev s.blackout (b.basicPublish s.log.length)

/-- How `n2a_amqp_publish` ends, by what the check and the library return. -/
theorem n2aAmqpPublish_cases (ev : Event) (hs : s.Sound) {t : Session}
    (ht : (n2aAmqpCheck o b s).2 = t) :
    (t.amqpConnected = false ∧
      n2aAmqpPublish o b ev s = (false, t.call (.published none false))) ∨
    (t.amqpConnected = true ∧ 0 ≤ b.basicPublish t.log.length ∧
      n2aAmqpPublish o b ev s = (true, (t.call (publication o b ev t)).call
        (.published (some (b.basicPublish t.log.length)) true))) ∨
    (t.amqpConnected = true ∧ ¬ 0 ≤ b.basicPublish t.log.length ∧
      n2aAmqpPublish o b ev s = (false,
        (n2aAmqpDisconnect b { t.call (publication o b ev t) with amqpErrors := true }).call
          (.published (some (b.basicPublish t.log.length)) false))) := by
  obtain ⟨-, hsound, hresult⟩ := n2aAmqpCheck_spec (o := o) (b := b) hs
  have hcheck : n2aAmqpCheck o b s = (t.amqpConnected, t) := by
    rw [← ht]
    exact Prod.ext hresult rfl
  rw [ht] at hsound
  cases hconnected : t.amqpConnected with
  | false => exact Or.inl ⟨rfl, by simp [n2aAmqpPublish, hcheck, hconnected]⟩
  | true =>
      have herrors : t.amqpErrors = false := (hsound.connected hconnected).2.1
      apply Or.inr
      by_cases hok : 0 ≤ b.basicPublish t.log.length
      · have hnot : ¬ b.basicPublish t.log.length < 0 := Int32.not_lt.mpr hok
        refine Or.inl ⟨rfl, hok, ?_⟩
        simp [n2aAmqpPublish, hcheck, hconnected, amqpBasicPublish, n2aOnError, hnot,
          Session.call, herrors, publication]
      · have hneg : b.basicPublish t.log.length < 0 := Int32.not_le.mp hok
        refine Or.inr ⟨rfl, hok, ?_⟩
        simp [n2aAmqpPublish, hcheck, hconnected, amqpBasicPublish, n2aOnError, hneg,
          Session.call, publication]

theorem n2aAmqpPublish_sound (ev : Event) (hs : s.Sound) : (n2aAmqpPublish o b ev s).2.Sound := by
  have hsound := (n2aAmqpCheck_spec (o := o) (b := b) hs).2.1
  rcases n2aAmqpPublish_cases ev hs rfl with ⟨-, hr⟩ | ⟨hconnected, hok, hr⟩ |
    ⟨hconnected, hok, hr⟩
  · rw [hr]
    exact hsound.call (by simp [Call.Proper])
  · have hpub := (hsound.connected hconnected)
    rw [hr]
    exact (hsound.call (c := publication o b ev _) ⟨hpub.1, hpub.2.2⟩).call
      (by simpa [Call.Proper] using hok)
  · have hpub := (hsound.connected hconnected)
    have hlogged := (hsound.call (c := publication o b ev _) ⟨hpub.1, hpub.2.2⟩).proper
    rw [hr]
    refine (n2aAmqpDisconnect_sound ?_).call (by simpa [Call.Proper] using hok)
    exact hlogged

/-! ## Whole runs -/

variable {w : Env}

theorem flushLoop_sound (left : Nat) {s : State} (hs : s.amqp.Sound) :
    (flushLoop o w left s).amqp.Sound := by
  induction left generalizing s with
  | zero => exact hs
  | succ left ih =>
      have hpublish := fun ev => n2aAmqpPublish_sound (o := o) (b := w.broker) ev hs
      unfold flushLoop
      split
      · exact hs
      · rename_i pEvent f hshift
        cases hok : (n2aAmqpPublish o w.broker (eventOf f pEvent) s.amqp).1 with
        | false =>
            simp only [hok]
            exact hpublish _
        | true =>
            simp only [hok]
            exact ih (hpublish _)

theorem flushQueue_sound (timestamp : Int32) {s : State} (hs : s.amqp.Sound) :
    (flushQueue o w timestamp s).amqp.Sound := by
  unfold flushQueue
  simp only []
  split
  · have hstart : (s.amqp.call (.flushRound timestamp)).Sound := hs.call trivial
    have hloop := flushLoop_sound (o := o) (w := w) (flushQuota o).toInt.toNat
      (s := { s with amqp := s.amqp.call (.flushRound timestamp) }) hstart
    exact ⟨hloop.connected, hloop.proper⟩
  · exact hs

theorem saveQueue_sound (timestamp : Int32) {s : State} (hs : s.amqp.Sound) :
    (saveQueue o w timestamp s).amqp.Sound := by
  unfold saveQueue
  simp only []
  split
  · exact hs.call trivial
  · exact hs

theorem n2aFifoCheck_sound {s : State} (hs : s.amqp.Sound) : (n2aFifoCheck o w s).amqp.Sound := by
  have hclock : (gettimeofday w.broker s.amqp).2.Sound := hs.call trivial
  exact saveQueue_sound _ (flushQueue_sound (s := { s with amqp := _ }) _ hclock)

theorem pushEvent_sound (ev : Event) {s : State} (hs : s.amqp.Sound) :
    (pushEvent w ev s).2.amqp.Sound :=
  hs.call trivial

theorem n2aSendEvent_sound (ev : Event) {s : State} (hs : s.amqp.Sound) :
    (n2aSendEvent o w ev s).2.amqp.Sound := by
  have hcheck : (n2aAmqpCheck o w.broker s.amqp).2.Sound := (n2aAmqpCheck_spec hs).2.1
  have hready := n2aFifoCheck_sound (o := o) (w := w)
    (s := { s with amqp := (n2aAmqpCheck o w.broker s.amqp).2 }) hcheck
  unfold n2aSendEvent
  simp only []
  split
  · split
    · exact (n2aAmqpPublish_sound ev hready).call trivial
    · exact n2aAmqpPublish_sound ev hready
  · exact pushEvent_sound ev hready

theorem State.step_sound {s : State} (hs : s.amqp.Sound) (op : Op) :
    (s.step o w op).amqp.Sound := by
  cases op with
  | sendEvent ev => exact n2aSendEvent_sound ev hs
  | amqpCheck => exact (n2aAmqpCheck_spec hs).2.1
  | toggleBlackout => exact n2aToggleBlackout_sound hs
  | amqpDisconnect => exact n2aAmqpDisconnect_sound hs.proper

theorem State.run_sound {s : State} (hs : s.amqp.Sound) (ops : List Op) :
    (s.run o w ops).amqp.Sound := by
  induction ops generalizing s with
  | nil => exact hs
  | cons op ops ih => exact ih (step_sound hs op)

end Neb2Amqp
