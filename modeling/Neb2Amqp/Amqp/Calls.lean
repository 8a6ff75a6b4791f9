import Neb2Amqp.Amqp.Invariant

/-!
# What connecting and disconnecting log

The calls of `n2a_amqp_connect` and `n2a_amqp_disconnect` in their order, and the rule
by which what these and the other calls keep is kept by everything built from them.
-/

namespace Neb2Amqp

open CLib

/-- A request on this connection, made while it is opened. -/
def Call.Asks (conn : Option Connection) : Call → Prop
  | .socketOpen c _ _ _ => c = conn
  | .login c _ _ _ _ => c = conn
  | .channelOpen c => c = conn
  | .exchangeDeclare c _ _ => c = conn
  | .getRpcReply c _ => c = conn
  | _ => False

/-- The answer that ends an attempt to connect. -/
def Call.refused : Call → Bool
  | .socketOpen _ _ _ status => decide (status < 0)
  | .login _ _ _ _ reply => decide (reply ≠ .normal)
  | .getRpcReply _ reply => decide (reply ≠ .normal)
  | _ => false

/-- The calls that close a connection, whatever they return. -/
def Closes (conn : Option Connection) (calls : List Call) : Prop :=
  ∃ r₁ r₂ status,
    calls = [.channelClose conn r₁, .connectionClose conn r₂, .destroyConnection conn status]

/-! ## Requests -/

theorem n2aOnError_eq (r : Int32 × Session) :
    n2aOnError r = { r.2 with amqpErrors := r.2.amqpErrors || decide (r.1 < 0) } := by
  unfold n2aOnError
  split
  · rename_i hneg
    rw [decide_eq_true hneg, Bool.or_true]
  · rename_i hneg
    rw [decide_eq_false hneg, Bool.or_false]

theorem n2aOnAmqpError_eq (r : ReplyType × Session) :
    n2aOnAmqpError r = { r.2 with amqpErrors := r.2.amqpErrors || decide (r.1 ≠ .normal) } := by
  obtain ⟨reply, s⟩ := r
  cases reply with
  | normal => exact congrArg (fun e => { s with amqpErrors := e }) (Bool.or_false _).symm
  | none | libraryException | serverException =>
      exact congrArg (fun e => { s with amqpErrors := e }) (Bool.or_true _).symm

/-- Between the two states only requests were made, and `amqp_errors` notes whether one
was refused. -/
structure Session.Asked (s s' : Session) : Prop where
  same : { s' with amqpErrors := s.amqpErrors, log := s.log } = s
  log : ∃ answers, s'.log = s.log ++ answers ∧ (∀ c ∈ answers, c.Asks s.conn) ∧
    s'.amqpErrors = (s.amqpErrors || answers.any Call.refused)

namespace Session.Asked

variable {s s' s'' : Session}

theorem conn (h : s.Asked s') : s'.conn = s.conn := by
  have hconn := congrArg Session.conn h.same
  exact hconn

theorem refl (s : Session) : s.Asked s := by
  refine ⟨rfl, [], (List.append_nil _).symm, ?_, ?_⟩
  · exact fun c hc => absurd hc List.not_mem_nil
  · exact (Bool.or_false _).symm

theorem trans (h : s.Asked s') (h' : s'.Asked s'') : s.Asked s'' := by
  obtain ⟨answers, hlog, hasks, herrors⟩ := h.log
  obtain ⟨more, hlog', hasks', herrors'⟩ := h'.log
  constructor
  · have hsame : { s'' with amqpErrors := s.amqpErrors, log := s.log } =
        { s' with amqpErrors := s.amqpErrors, log := s.log } := by
      rw [← h'.same]
    exact hsame.trans h.same
  · refine ⟨answers ++ more, ?_, fun c hc => ?_, ?_⟩
    · rw [hlog', hlog, List.append_assoc]
    · exact (List.mem_append.mp hc).elim (hasks c) fun hmem => h.conn ▸ hasks' c hmem
    · rw [herrors', herrors, List.any_append, Bool.or_assoc]

theorem of_call {c : Call} (hasks : c.Asks s.conn) (herrors : s'.amqpErrors =
    (s.amqpErrors || c.refused)) (hsame : { s' with amqpErrors := s.amqpErrors, log := s.log } = s)
    (hlog : s'.log = s.log ++ [c]) : s.Asked s' := by
  refine ⟨hsame, [c], hlog, List.forall_mem_singleton.mpr hasks, ?_⟩
  rw [List.any_cons, List.any_nil, Bool.or_false]
  exact herrors

theorem onError {x : Int32} {c : Call} (hasks : c.Asks s.conn)
    (hrefused : c.refused = decide (x < 0)) : s.Asked (n2aOnError (x, s.call c)) := by
  rw [n2aOnError_eq]
  exact of_call hasks (congrArg (s.amqpErrors || ·) hrefused.symm) rfl rfl

theorem onAmqpError {x : ReplyType} {c : Call} (hasks : c.Asks s.conn)
    (hrefused : c.refused = decide (x ≠ .normal)) : s.Asked (n2aOnAmqpError (x, s.call c)) := by
  rw [n2aOnAmqpError_eq]
  exact of_call hasks (congrArg (s.amqpErrors || ·) hrefused.symm) rfl rfl

theorem call {c : Call} (hasks : c.Asks s.conn) (hrefused : c.refused = false) :
    s.Asked (s.call c) :=
  of_call hasks (by simp [hrefused, Session.call]) rfl rfl

theorem unlessErrors (h : s.Asked s') {request : Session → Session}
    (hrequest : ∀ t : Session, t.Asked (request t)) : s.Asked (s'.unlessErrors request) := by
  unfold Session.unlessErrors
  split
  · exact h.trans (hrequest s')
  · exact h

end Session.Asked

variable {o : Options} {b : Broker}

theorem Session.opened_asked (s : Session) : s.Asked (s.opened o b) := by
  have hsocket : s.Asked (n2aOnError (amqpSocketOpenNoblock o b s)) := .onError rfl rfl
  unfold Session.opened
  refine ((hsocket.unlessErrors fun t => ?_).unlessErrors fun t => ?_).unlessErrors fun t => ?_
  · exact .onAmqpError rfl rfl
  · exact (Asked.call (c := .channelOpen t.conn) rfl rfl).trans (.onAmqpError rfl rfl)
  · split
    · exact (Asked.call (c := .exchangeDeclare t.conn _ _) rfl rfl).trans (.onAmqpError rfl rfl)
    · exact .refl t

/-! ## Connecting -/

/-- What `n2a_amqp_connect` does: it notes the time, closes an old connection, makes a
new one and asks the broker to open it. -/
structure Session.Connects (b : Broker) (s s' : Session) (closing answers : List Call) : Prop where
  closes : (s.conn = none ∧ closing = []) ∨ (s.conn ≠ none ∧ Closes s.conn closing)
  log : s'.log = s.log ++ .gettimeofday (b.gettimeofday s.log.length) :: closing ++
    .newConnection (s.log.length + 1 + closing.length) :: answers
  asks : ∀ c ∈ answers, c.Asks s'.conn
  conn : s'.conn = some (s.log.length + 1 + closing.length)
  lastConnect : s'.amqpLastConnect = (b.gettimeofday s.log.length).toInt32
  connected : s'.amqpConnected = !answers.any Call.refused
  lastFlush : s'.fifoLastFlush = if s'.amqpConnected then 0 else s.fifoLastFlush

theorem Session.closeOld_closes (b : Broker) (s : Session) : ∃ closing,
    s.closeOld b = { s with log := s.log ++ closing } ∧
      ((s.conn = none ∧ closing = []) ∨ (s.conn ≠ none ∧ Closes s.conn closing)) := by
  cases hconn : s.conn with
  | none =>
      refine ⟨[], ?_, Or.inl ⟨rfl, rfl⟩⟩
      simp only [Session.closeOld, hconn, List.append_nil]
      rw [← hconn]
  | some conn =>
      refine ⟨[.channelClose (some conn) (b.channelClose s.log.length),
        .connectionClose (some conn) (b.connectionClose (s.log.length + 1)),
        .destroyConnection (some conn) (b.destroyConnection (s.log.length + 2))], ?_,
        Or.inr ⟨Option.some_ne_none conn, _, _, _, rfl⟩⟩
      simp only [Session.closeOld, amqpChannelClose, amqpConnectionClose, amqpDestroyConnection,
        Session.call, hconn, List.append_assoc, List.cons_append, List.nil_append,
        List.length_append, List.length_cons, List.length_nil]

theorem n2aAmqpConnect_connects (o : Options) (b : Broker) (s : Session) :
    ∃ closing answers, s.Connects b (n2aAmqpConnect o b s).2 closing answers := by
  obtain ⟨closing, hclosed, hcloses⟩ := Session.closeOld_closes b
    { s with
      amqpErrors := false
      amqpLastConnect := (b.gettimeofday s.log.length).toInt32
      log := s.log ++ [.gettimeofday (b.gettimeofday s.log.length)] }
  have hrenewed : s.renewed b = { s with
      amqpErrors := false
      amqpLastConnect := (b.gettimeofday s.log.length).toInt32
      conn := some (s.log.length + 1 + closing.length)
      log := s.log ++ .gettimeofday (b.gettimeofday s.log.length) :: closing ++
        [.newConnection (s.log.length + 1 + closing.length)] } := by
    simp only [Session.renewed, gettimeofday, Session.call, hclosed, amqpNewConnection,
      List.append_assoc, List.cons_append, List.nil_append, List.length_append, List.length_cons]
    rw [Nat.add_comm closing.length 1, Nat.add_assoc]
  have hasked := Session.opened_asked (o := o) (b := b) (s.renewed b)
  obtain ⟨answers, hlog, hasks, herrors⟩ := hasked.log
  have hsame := hasked.same
  have hconn := hasked.conn
  generalize hopened : (s.renewed b).opened o b = t at hlog hasks herrors hsame hconn
  have hconcluded : (n2aAmqpConnect o b s).2 = t.concluded := by
    rw [← hopened]
    rfl
  rw [hrenewed] at hlog hasks herrors hsame hconn
  have hlast := congrArg Session.amqpLastConnect hsame
  have hflush := congrArg Session.fifoLastFlush hsame
  have hfields : t.concluded.log = t.log ∧ t.concluded.amqpLastConnect = t.amqpLastConnect ∧
      t.concluded.amqpConnected = (!t.amqpErrors) ∧
      t.concluded.fifoLastFlush = if t.concluded.amqpConnected then 0 else t.fifoLastFlush := by
    unfold Session.concluded
    cases t.amqpErrors <;> exact ⟨rfl, rfl, rfl, rfl⟩
  rw [hconcluded]
  refine ⟨closing, answers, hcloses, ?_, ?_, ?_, ?_, ?_, ?_⟩
  · rw [hfields.1, hlog]
    simp only [List.append_assoc, List.cons_append, List.nil_append]
  · rw [Session.concluded_conn, hconn]
    exact hasks
  · rw [Session.concluded_conn, hconn]
  · rw [hfields.2.1]
    exact hlast
  · rw [hfields.2.2.1, herrors, Bool.false_or]
  · have htimer := hfields.2.2.2
    rw [show t.fifoLastFlush = s.fifoLastFlush from hflush] at htimer
    exact htimer

/-! ## Disconnecting -/

/-- What `n2a_amqp_disconnect` does: a connection that is not in use is not closed, and
in either case it is forgotten. -/
structure Session.Disconnects (s s' : Session) (closing : List Call) : Prop where
  closes : (s.amqpConnected = false ∧ closing = []) ∨
    (s.amqpConnected = true ∧ Closes s.conn closing)
  log : s'.log = s.log ++ closing
  conn : s'.conn = none
  connected : s'.amqpConnected = false
  lastConnect : s'.amqpLastConnect = s.amqpLastConnect
  lastFlush : s'.fifoLastFlush = s.fifoLastFlush

theorem n2aAmqpDisconnect_disconnects (b : Broker) (s : Session) :
    ∃ closing, s.Disconnects (n2aAmqpDisconnect b s) closing := by
  cases hconnected : s.amqpConnected with
  | false =>
      have hidle : n2aAmqpDisconnect b s =
          { s with amqpErrors := false, conn := none, amqpConnected := false } := by
        simp [n2aAmqpDisconnect, hconnected]
      rw [hidle]
      exact ⟨[], Or.inl ⟨hconnected, rfl⟩, (List.append_nil _).symm, rfl, rfl, rfl, rfl⟩
  | true =>
      have hclosed : n2aAmqpDisconnect b s = { Session.closeCurrent b { s with amqpErrors := false }
          with conn := none, amqpConnected := false } := by
        simp [n2aAmqpDisconnect, hconnected]
      rw [hclosed, Session.closeCurrent, n2aOnError_eq, n2aOnAmqpError_eq, n2aOnAmqpError_eq]
      refine ⟨[.channelClose s.conn (b.channelClose s.log.length),
        .connectionClose s.conn (b.connectionClose (s.log.length + 1)),
        .destroyConnection s.conn (b.destroyConnection (s.log.length + 2))],
        Or.inr ⟨hconnected, _, _, _, rfl⟩, ?_, rfl, rfl, rfl, rfl⟩
      simp only [amqpChannelClose, amqpConnectionClose, amqpDestroyConnection, Session.call,
        List.append_assoc, List.cons_append, List.nil_append, List.length_append, List.length_cons,
        List.length_nil]

theorem n2aToggleBlackout_cases (b : Broker) (s : Session) :
    (s.blackout = false ∧
      (n2aToggleBlackout b s).2 = { n2aAmqpDisconnect b s with blackout := true }) ∨
    (s.blackout = true ∧ (n2aToggleBlackout b s).2 = { s with blackout := false }) := by
  by_cases hblackout : s.blackout = true
  · exact Or.inr ⟨hblackout, by simp [n2aToggleBlackout, hblackout]⟩
  · have hfalse := Bool.eq_false_of_not_eq_true hblackout
    exact Or.inl ⟨hfalse, by simp [n2aToggleBlackout, hfalse]⟩

/-! ## What every call keeps -/

/-- Calls that concern no connection and begin nothing. -/
def Call.isNote : Call → Bool
  | .gettimeofday .. | .published .. | .push .. => true
  | _ => false

/-- What the parts of `n2a_amqp_check` and `n2a_amqp_publish` keep. -/
structure Session.Kept (o : Options) (b : Broker) (P : Session → Prop) : Prop where
  note : ∀ (s : Session) (c : Call), c.isNote = true → P s → P (s.call c)
  connect : ∀ s : Session, s.amqpConnected = false → s.Due o b → P s →
    P (n2aAmqpConnect o b (gettimeofday b s).2).2
  publish : ∀ (s : Session) (ev : Event), s.conn ≠ none → P s → P (s.call (publication o b ev s))
  disconnect : ∀ s : Session, s.conn ≠ none → s.amqpConnected = true → P s →
    P (n2aAmqpDisconnect b s)

namespace Session.Kept

variable {P : Session → Prop} {w : Env}

theorem check (h : Kept o b P) {s : Session} (hp : P s) : P (n2aAmqpCheck o b s).2 := by
  have hclock : P (gettimeofday b s).2 := h.note s (.gettimeofday _) rfl hp
  rcases n2aAmqpCheck_cases o b s with
    ⟨-, hcheck⟩ | ⟨-, -, hcheck⟩ | ⟨-, hconnected, hcheck | ⟨hdue, hcheck⟩⟩
  · rw [hcheck]
    exact hp
  · rw [hcheck]
    exact hp
  · rw [hcheck]
    exact hclock
  · rw [hcheck]
    exact h.connect s hconnected hdue hp

theorem amqpPublish (h : Kept o b P) (ev : Event) {s : Session} (hs : s.Sound) (hp : P s) :
    P (n2aAmqpPublish o b ev s).2 := by
  have hcheck : P (n2aAmqpCheck o b s).2 := h.check hp
  have hsound := (n2aAmqpCheck_spec (o := o) (b := b) hs).2.1
  rcases n2aAmqpPublish_cases ev hs rfl with ⟨-, hr⟩ | ⟨hconnected, -, hr⟩ | ⟨hconnected, -, hr⟩
  · rw [hr]
    exact h.note _ _ rfl hcheck
  · rw [hr]
    exact h.note _ _ rfl (h.publish _ ev (hsound.connected hconnected).1 hcheck)
  · have hconn := (hsound.connected hconnected).1
    have hclosed := h.disconnect ((n2aAmqpCheck o b s).2.call (publication o b ev _)) hconn
      hconnected (h.publish _ ev hconn hcheck)
    rw [hr]
    exact h.note _ _ rfl hclosed

theorem flushLoop (h : Kept o w.broker P) (left : Nat) {s : State} (hs : s.amqp.Sound)
    (hp : P s.amqp) : P (Neb2Amqp.flushLoop o w left s).amqp := by
  induction left generalizing s with
  | zero => exact hp
  | succ left ih =>
      unfold Neb2Amqp.flushLoop
      split
      · exact hp
      · rename_i pEvent f hshift
        have hpublished := h.amqpPublish (eventOf f pEvent) hs hp
        have hsound := n2aAmqpPublish_sound (o := o) (b := w.broker) (eventOf f pEvent) hs
        cases hok : (n2aAmqpPublish o w.broker (eventOf f pEvent) s.amqp).1 with
        | false =>
            simp only [hok]
            exact hpublished
        | true =>
            simp only [hok]
            exact ih (s := { s with amqp := _, pFifo := _ }) hsound hpublished

theorem flushQueue (h : Kept o w.broker P)
    (hround : ∀ (s : Session) (timestamp : Int32), P s → P (s.call (.flushRound timestamp)))
    (htimer : ∀ (s : Session) (timestamp : Int32), P s → P { s with fifoLastFlush := timestamp })
    (s : State) (hs : s.amqp.Sound) (hp : P s.amqp) :
    P (Neb2Amqp.flushQueue o w (gettimeofday w.broker s.amqp).1.toInt32
      { s with amqp := (gettimeofday w.broker s.amqp).2 }).amqp := by
  have hclock : P (gettimeofday w.broker s.amqp).2 := h.note s.amqp (.gettimeofday _) rfl hp
  have hsound : (gettimeofday w.broker s.amqp).2.Sound := hs.call trivial
  unfold Neb2Amqp.flushQueue
  simp only []
  split
  · apply htimer
    apply h.flushLoop
    · exact hsound.call trivial
    · exact hround _ _ hclock
  · exact hclock

theorem sendEvent (h : Kept o w.broker P)
    (hflush : ∀ s : State, s.amqp.Sound → P s.amqp →
      P (Neb2Amqp.flushQueue o w (gettimeofday w.broker s.amqp).1.toInt32
        { s with amqp := (gettimeofday w.broker s.amqp).2 }).amqp)
    (hsave : ∀ (s : Session) (timestamp : Int32), P s → P (s.call (.csync timestamp)))
    (ev : Event) {s : State} (hs : s.amqp.Sound) (hp : P s.amqp) :
    P (n2aSendEvent o w ev s).2.amqp := by
  have hchecked := (n2aAmqpCheck_spec (o := o) (b := w.broker) hs).2.1
  have hsound := n2aFifoCheck_sound (o := o) (w := w)
    (s := { s with amqp := (n2aAmqpCheck o w.broker s.amqp).2 }) hchecked
  have hready : P (n2aFifoCheck o w { s with amqp := (n2aAmqpCheck o w.broker s.amqp).2 }).amqp := by
    have hflushed := hflush { s with amqp := (n2aAmqpCheck o w.broker s.amqp).2 } hchecked
      (h.check hp)
    unfold n2aFifoCheck saveQueue
    simp only []
    split
    · exact hsave _ _ hflushed
    · exact hflushed
  unfold n2aSendEvent
  simp only []
  split
  · split
    · exact h.note _ _ rfl (h.amqpPublish ev hsound hready)
    · exact h.amqpPublish ev hsound hready
  · exact h.note _ _ rfl hready

end Session.Kept

def Call.publishes : Call → Bool
  | .basicPublish .. => true
  | _ => false

/-! ## What whole runs keep -/

/-- What the operations of a run and the notes between them keep. -/
structure Session.Held (o : Options) (b : Broker) (P : Session → Prop) : Prop where
  note : ∀ (s : Session) (c : Call), c.publishes = false →
    (∀ attempt result, c ≠ .published attempt result) → P s → P (s.call c)
  timer : ∀ (s : Session) (timestamp : Int32), P s → P { s with fifoLastFlush := timestamp }
  mark : ∀ (s : Session) (blackout : Bool), P s → P { s with blackout := blackout }
  check : ∀ s : Session, s.Sound → P s → P (n2aAmqpCheck o b s).2
  publish : ∀ (s : Session) (ev : Event), s.Sound → P s → P (n2aAmqpPublish o b ev s).2
  disconnect : ∀ s : Session, P s → P (n2aAmqpDisconnect b s)

namespace Session.Held

variable {o : Options} {w : Env} {P : Session → Prop}

theorem flushLoop (h : Held o w.broker P) (left : Nat) {s : State} (hs : s.amqp.Sound) (hp : P s.amqp) :
    P (Neb2Amqp.flushLoop o w left s).amqp := by
  induction left generalizing s with
  | zero => exact hp
  | succ left ih =>
      unfold Neb2Amqp.flushLoop
      split
      · exact hp
      · rename_i pEvent f hshift
        have hpublished := h.publish s.amqp (eventOf f pEvent) hs hp
        have hsound := n2aAmqpPublish_sound (o := o) (b := w.broker) (eventOf f pEvent) hs
        cases hok : (n2aAmqpPublish o w.broker (eventOf f pEvent) s.amqp).1 with
        | false =>
            simp only [hok]
            exact hpublished
        | true =>
            simp only [hok]
            exact ih (s := { s with amqp := _, pFifo := _ }) hsound hpublished

theorem fifoCheck (h : Held o w.broker P) {s : State} (hs : s.amqp.Sound) (hp : P s.amqp) :
    P (n2aFifoCheck o w s).amqp := by
  have hclock : P (gettimeofday w.broker s.amqp).2 := h.note s.amqp (.gettimeofday _) rfl nofun hp
  have hsound : (gettimeofday w.broker s.amqp).2.Sound := hs.call trivial
  have hflushed : P (flushQueue o w (gettimeofday w.broker s.amqp).1.toInt32
      { s with amqp := (gettimeofday w.broker s.amqp).2 }).amqp := by
    unfold flushQueue
    simp only []
    split
    · apply h.timer
      apply h.flushLoop
      · exact hsound.call trivial
      · exact h.note _ (.flushRound _) rfl nofun hclock
    · exact hclock
  unfold n2aFifoCheck saveQueue
  simp only []
  split
  · exact h.note _ (.csync _) rfl nofun hflushed
  · exact hflushed

theorem sendEvent (h : Held o w.broker P) (ev : Event) {s : State} (hs : s.amqp.Sound) (hp : P s.amqp) :
    P (n2aSendEvent o w ev s).2.amqp := by
  have hchecked := (n2aAmqpCheck_spec (o := o) (b := w.broker) hs).2.1
  have hsound := n2aFifoCheck_sound (o := o) (w := w)
    (s := { s with amqp := (n2aAmqpCheck o w.broker s.amqp).2 }) hchecked
  have hready := h.fifoCheck (s := { s with amqp := (n2aAmqpCheck o w.broker s.amqp).2 }) hchecked
    (h.check s.amqp hs hp)
  unfold n2aSendEvent
  simp only []
  split
  · split
    · exact h.note _ (.push _ _ _) rfl nofun (h.publish _ ev hsound hready)
    · exact h.publish _ ev hsound hready
  · exact h.note _ (.push _ _ _) rfl nofun hready

theorem step (h : Held o w.broker P) {s : State} (hs : s.amqp.Sound) (hp : P s.amqp) (op : Op) :
    P (s.step o w op).amqp := by
  cases op with
  | sendEvent ev => exact h.sendEvent ev hs hp
  | amqpCheck => exact h.check s.amqp hs hp
  | amqpDisconnect => exact h.disconnect s.amqp hp
  | toggleBlackout =>
      change P (n2aToggleBlackout w.broker s.amqp).2
      rcases n2aToggleBlackout_cases w.broker s.amqp with ⟨_, htoggle⟩ | ⟨_, htoggle⟩
      · rw [htoggle]
        exact h.mark _ true (h.disconnect s.amqp hp)
      · rw [htoggle]
        exact h.mark _ false hp

theorem run (h : Held o w.broker P) {s : State} (hs : s.amqp.Sound) (hp : P s.amqp) (ops : List Op) :
    P (s.run o w ops).amqp := by
  induction ops generalizing s with
  | nil => exact hp
  | cons op ops ih => exact ih (State.step_sound hs op) (h.step hs hp op)

end Session.Held

end Neb2Amqp
