import Neb2Amqp.Amqp.Calls

/-!
# What a publication reports

`n2a_amqp_publish` returns true exactly if `amqp_basic_publish` took the event over: at every
operation boundary, and in every call that a run makes of it.
-/

namespace Neb2Amqp

open CLib

variable {o : Options} {b : Broker} {s : Session}

/-- Among the calls is one of `amqp_basic_publish` that took `ev` over. -/
def TookOver (ev : Event) (calls : List Call) : Prop :=
  ∃ conn exchangeName blackout status,
    Call.basicPublish conn exchangeName ev blackout status ∈ calls ∧ 0 ≤ status

/-- `n2a_amqp_publish`, called in this session, returns true exactly if it called
`amqp_basic_publish` for the event and this did not return an error. -/
def Session.Reports (o : Options) (b : Broker) (s : Session) (ev : Event) : Prop :=
  (n2aAmqpPublish o b ev s).1 = true ↔
    TookOver ev ((n2aAmqpPublish o b ev s).2.log.drop s.log.length)

theorem not_tookOver_of_quiet {ev : Event} {calls : List Call} (h : ∀ c ∈ calls, c.quiet = true) :
    ¬ TookOver ev calls := by
  intro htook
  obtain ⟨conn, exchangeName, blackout, status, hcall, _⟩ := htook
  cases h _ hcall

theorem tookOver_append {ev : Event} {calls more : List Call} :
    TookOver ev (calls ++ more) ↔ TookOver ev calls ∨ TookOver ev more := by
  constructor
  · intro h
    obtain ⟨conn, exchangeName, blackout, status, hcall, hstatus⟩ := h
    rcases List.mem_append.mp hcall with hmem | hmem
    · exact Or.inl ⟨conn, exchangeName, blackout, status, hmem, hstatus⟩
    · exact Or.inr ⟨conn, exchangeName, blackout, status, hmem, hstatus⟩
  · intro h
    rcases h with ⟨conn, exchangeName, blackout, status, hmem, hstatus⟩ |
      ⟨conn, exchangeName, blackout, status, hmem, hstatus⟩
    · exact ⟨conn, exchangeName, blackout, status, List.mem_append_left _ hmem, hstatus⟩
    · exact ⟨conn, exchangeName, blackout, status, List.mem_append_right _ hmem, hstatus⟩

theorem not_tookOver_published (ev : Event) (attempt : Option Int32) (result : Bool) :
    ¬ TookOver ev [.published attempt result] := by
  intro h
  obtain ⟨conn, exchangeName, blackout, status, hcall, _⟩ := h
  cases List.mem_singleton.mp hcall

theorem tookOver_publication (ev : Event) :
    TookOver ev [publication o b ev s] ↔ 0 ≤ b.basicPublish s.log.length := by
  constructor
  · intro h
    obtain ⟨conn, exchangeName, blackout, status, hcall, hstatus⟩ := h
    cases List.mem_singleton.mp hcall
    exact hstatus
  · exact fun h => ⟨s.conn, o.exchangeName, s.blackout, _, List.mem_singleton_self _, h⟩

theorem n2aAmqpPublish_reports (hs : s.Sound) (ev : Event) : s.Reports o b ev := by
  obtain ⟨checking, hchecking, hquiet⟩ := (n2aAmqpCheck_spec (o := o) (b := b) hs).1.log
  have hcheck : ¬ TookOver ev checking := not_tookOver_of_quiet hquiet
  generalize ht : (n2aAmqpCheck o b s).2 = t at hchecking
  unfold Session.Reports
  rcases n2aAmqpPublish_cases (o := o) (b := b) ev hs ht with ⟨_, hr⟩ | ⟨_, hok, hr⟩ | ⟨_, hok, hr⟩
  · have hlog : (n2aAmqpPublish o b ev s).2.log =
        s.log ++ (checking ++ [.published none false]) := by
      rw [hr]
      simp [Session.call, hchecking]
    rw [hlog, List.drop_left, tookOver_append, hr]
    simp [hcheck, not_tookOver_published]
  · have hlog : (n2aAmqpPublish o b ev s).2.log =
        s.log ++ (checking ++ ([publication o b ev t] ++
          [.published (some (b.basicPublish t.log.length)) true])) := by
      rw [hr]
      simp [Session.call, hchecking]
    rw [hlog, List.drop_left, tookOver_append, tookOver_append, tookOver_publication, hr]
    simp [hok]
  · obtain ⟨closing, hclosing, hclosed⟩ := (n2aAmqpDisconnect_quietly (b := b)
      { t.call (publication o b ev t) with amqpErrors := true }).log
    have hclose : ¬ TookOver ev closing := not_tookOver_of_quiet hclosed
    have hlog : (n2aAmqpPublish o b ev s).2.log =
        s.log ++ (checking ++ ([publication o b ev t] ++ (closing ++
          [.published (some (b.basicPublish t.log.length)) false]))) := by
      rw [hr]
      simp only [Session.call] at hclosing ⊢
      rw [hclosing, hchecking]
      simp
    rw [hlog, List.drop_left, tookOver_append, tookOver_append, tookOver_append,
      tookOver_publication, hr]
    simp [hcheck, hok, hclose, not_tookOver_published]

/-! ## The returns of a run -/

/-- Every return in the log is one of a call of `n2a_amqp_publish` that reports what the library
returned to it. -/
def Returned (o : Options) (b : Broker) (log : List Call) : Prop :=
  ∀ before attempt result, before ++ [Call.published attempt result] <+: log →
    ∃ t ev, (n2aAmqpPublish o b ev t).1 = result ∧
      (n2aAmqpPublish o b ev t).2.log = before ++ [.published attempt result] ∧ t.Reports o b ev

namespace Returned

variable {log : List Call}

theorem nil : Returned o b [] := by
  intro before attempt result h
  exact absurd (List.prefix_nil.mp h) (List.append_ne_nil_of_right_ne_nil _ (List.cons_ne_nil _ _))

theorem concat (h : Returned o b log) {c : Call}
    (hc : ∀ attempt result, c ≠ .published attempt result) : Returned o b (log ++ [c]) := by
  intro before attempt result hbefore
  rcases List.prefix_concat_iff.mp hbefore with hall | hpart
  · have hlast := (List.append_inj' hall rfl).2
    exact absurd (List.cons.inj hlast).1.symm (hc attempt result)
  · exact h before attempt result hpart

theorem append (h : Returned o b log) {calls : List Call} (hcalls : ∀ c ∈ calls, c.quiet = true) :
    Returned o b (log ++ calls) := by
  induction calls generalizing log with
  | nil => rwa [List.append_nil]
  | cons c rest ih =>
      rw [List.append_cons]
      apply ih (h.concat _) fun d hd => hcalls d (List.mem_cons_of_mem c hd)
      intro attempt result hreturn
      have hquiet := hcalls c List.mem_cons_self
      rw [hreturn] at hquiet
      cases hquiet

theorem quietly {s' : Session} (h : Returned o b s.log) (hs : Quietly s s') :
    Returned o b s'.log := by
  obtain ⟨calls, hcalls, hquiet⟩ := hs.log
  rw [hcalls]
  exact h.append hquiet

theorem publish (h : Returned o b s.log) (hs : s.Sound) (ev : Event) :
    Returned o b (n2aAmqpPublish o b ev s).2.log := by
  have hreports := n2aAmqpPublish_reports (o := o) (b := b) hs ev
  have hchecked := h.quietly (n2aAmqpCheck_spec (o := o) (b := b) hs).1
  generalize ht : (n2aAmqpCheck o b s).2 = t at hchecked
  have hpublished : Returned o b (t.call (publication o b ev t)).log := hchecked.concat nofun
  intro before attempt result hbefore
  -- What the log holds before the return are returns of earlier calls.
  have hend : ∀ {u : Session} {attempt' : Option Int32} {result' : Bool},
      n2aAmqpPublish o b ev s = (result', u.call (.published attempt' result')) →
      Returned o b u.log → ∃ t ev, (n2aAmqpPublish o b ev t).1 = result ∧
        (n2aAmqpPublish o b ev t).2.log = before ++ [.published attempt result] ∧
        t.Reports o b ev := by
    intro u attempt' result' hr hu
    rw [hr] at hbefore
    rcases List.prefix_concat_iff.mp hbefore with hall | hpart
    · obtain ⟨hfront, hlast⟩ := List.append_inj' hall rfl
      cases (List.cons.inj hlast).1
      refine ⟨s, ev, by rw [hr], ?_, hreports⟩
      rw [hr, hfront]
      rfl
    · exact hu before attempt result hpart
  rcases n2aAmqpPublish_cases (o := o) (b := b) ev hs ht with ⟨_, hr⟩ | ⟨_, _, hr⟩ | ⟨_, _, hr⟩
  · exact hend hr hchecked
  · exact hend hr hpublished
  · exact hend hr (Returned.quietly (s := { t.call (publication o b ev t) with amqpErrors := true })
      hpublished (n2aAmqpDisconnect_quietly _))

theorem held : Session.Held o b fun s => Returned o b s.log where
  note := fun _ _ _ hc h => h.concat hc
  timer := fun _ _ h => h
  mark := fun _ _ h => h
  check := fun _ hs h => h.quietly (n2aAmqpCheck_spec hs).1
  publish := fun _ ev hs h => h.publish hs ev
  disconnect := fun _ h => h.quietly (n2aAmqpDisconnect_quietly _)

end Returned

/-- The connection flags after any run from module load, the calls of `amqp_basic_publish` the run
made, and what `n2a_amqp_publish` returned in it and returns to a call that follows it. -/
theorem State.run_connected (o : Options) (w : Env) (f : Fifo) (ops : List Op) :
    (((loaded f).run o w ops).amqp.amqpConnected = true →
      ((loaded f).run o w ops).amqp.conn ≠ none ∧
      ((loaded f).run o w ops).amqp.amqpErrors = false ∧
      ((loaded f).run o w ops).amqp.blackout = false) ∧
    (∀ conn exchangeName ev blackout status,
      Call.basicPublish conn exchangeName ev blackout status ∈ ((loaded f).run o w ops).amqp.log →
      conn ≠ none ∧ blackout = false) ∧
    (∀ attempt result, Call.published attempt result ∈ ((loaded f).run o w ops).amqp.log →
      (result = true ↔ ∃ status, attempt = some status ∧ 0 ≤ status)) ∧
    (∀ ev, ((loaded f).run o w ops).amqp.Reports o w.broker ev) ∧
    Returned o w.broker ((loaded f).run o w ops).amqp.log := by
  have hsound : ((loaded f).run o w ops).amqp.Sound := run_sound Session.loaded_sound ops
  refine ⟨hsound.connected, ?_, ?_, ?_, ?_⟩
  · intro conn exchangeName ev blackout status hcall
    exact hsound.proper _ hcall
  · intro attempt result hcall
    exact hsound.proper _ hcall
  · exact n2aAmqpPublish_reports hsound
  · exact Returned.held.run Session.loaded_sound Returned.nil ops

end Neb2Amqp
