import Neb2Amqp.Amqp.Calls
import Neb2Amqp.Amqp.Delivery

/-!
# Publications on one connection

A publication that fails takes the connection with it: `n2a_amqp_publish` disconnects at once, and
`n2a_amqp_connect` makes a new connection. So among the publications on one connection only the
last can have failed. Connections are used one after the other, so that what was published is what
was published on each of them, in the order they were made in.
-/

namespace Neb2Amqp

open CLib

/-- The event published on this connection, and what `amqp_basic_publish` returned. -/
def Call.attempt (conn : Nat) : Call → Option (Event × Int32)
  | .basicPublish c _ ev _ status => if c = some conn then some (ev, status) else none
  | _ => none

def Session.attempts (s : Session) (conn : Nat) : List (Event × Int32) :=
  s.log.filterMap (Call.attempt conn)

/-- The events that `amqp_basic_publish` took over. -/
def takenOver (attempts : List (Event × Int32)) : List Event :=
  attempts.filterMap fun a => if 0 ≤ a.2 then some a.1 else none

def Session.deliveredOn (s : Session) (conn : Connection) : List Event := takenOver (s.attempts conn)

theorem Call.attempt_of_not_publishes {c : Call} (h : c.publishes = false) (conn : Connection) :
    c.attempt conn = none := by
  cases c with
  | basicPublish => cases h
  | _ => rfl

theorem Call.delivered_of_not_publishes {c : Call} (h : c.publishes = false) : c.delivered = none := by
  cases c with
  | basicPublish => cases h
  | _ => rfl

theorem Call.not_publishes_of_quiet {c : Call} (h : c.quiet = true) : c.publishes = false := by
  cases c with
  | basicPublish | published | push => cases h
  | _ => rfl

/-- Nothing follows an attempt that failed. -/
def FailsLast : List (Event × Int32) → Prop
  | [] => True
  | [_] => True
  | (_, status) :: rest => 0 ≤ status ∧ FailsLast rest

theorem failsLast_append {attempts : List (Event × Int32)} (h : ∀ a ∈ attempts, 0 ≤ a.2)
    (last : Event × Int32) : FailsLast (attempts ++ [last]) := by
  induction attempts with
  | nil => trivial
  | cons a rest ih =>
      have hrest := ih fun b hb => h b (List.mem_cons_of_mem a hb)
      cases rest with
      | nil => exact ⟨h a List.mem_cons_self, hrest⟩
      | cons b rest => exact ⟨h a List.mem_cons_self, hrest⟩

/-! ## Order on a connection -/

/-- Connections not made yet have no publications and neither have those younger than the one in use,
on which none has failed. On every other only the last can have. -/
structure Session.Orderly (s : Session) : Prop where
  known : ∀ conn : Nat, s.conn = some conn → conn < s.log.length
  unused : ∀ conn : Nat, s.log.length ≤ conn → s.attempts conn = []
  youngest : ∀ conn later : Nat, s.conn = some conn → conn < later → s.attempts later = []
  inUse : ∀ conn : Nat, s.conn = some conn → ∀ a ∈ s.attempts conn, 0 ≤ a.2
  past : ∀ conn : Nat, FailsLast (s.attempts conn)
  whole : s.published = (List.range s.log.length).flatMap s.deliveredOn

theorem flatMap_range_of_nil {α : Type} {g : Nat → List α} {n m : Nat} (hle : n ≤ m)
    (hg : ∀ i, n ≤ i → g i = []) : (List.range m).flatMap g = (List.range n).flatMap g := by
  induction m with
  | zero => rw [Nat.le_zero.mp hle]
  | succ m ih =>
      rcases Nat.lt_or_eq_of_le hle with hless | heq
      · have hbefore := Nat.le_of_lt_succ hless
        rw [List.range_succ, List.flatMap_append, ih hbefore, List.flatMap_cons, hg m hbefore, List.flatMap_nil,
          List.append_nil, List.append_nil]
      · rw [heq]

namespace Session.Orderly

variable {o : Options} {b : Broker} {s s' : Session}

theorem loaded : Orderly .loaded where
  known := fun _ h => by cases h
  unused := fun _ _ => rfl
  youngest := fun _ _ h => by cases h
  inUse := fun _ h => by cases h
  past := fun _ => trivial
  whole := rfl

theorem more (h : s.Orderly) {calls : List Call} (hlog : s'.log = s.log ++ calls)
    (hcalls : ∀ c ∈ calls, c.publishes = false)
    (hconn : ∀ conn : Nat, s'.conn = some conn →
      s.conn = some conn ∨ s.log.length ≤ conn ∧ conn < s'.log.length) : s'.Orderly := by
  have hsame : s'.attempts = s.attempts := by
    funext conn
    have hnone : calls.filterMap (Call.attempt conn) = [] :=
      List.filterMap_eq_nil_iff.mpr fun c hc => Call.attempt_of_not_publishes (hcalls c hc) conn
    unfold attempts
    rw [hlog, List.filterMap_append, hnone, List.append_nil]
  have hlength : s.log.length ≤ s'.log.length := by
    rw [hlog, List.length_append]
    omega
  constructor
  · intro conn hc
    rcases hconn conn hc with hold | ⟨_, hlast⟩
    · have hknown := h.known conn hold
      omega
    · exact hlast
  · intro conn hafter
    rw [hsame]
    exact h.unused conn (by omega)
  · intro conn later hc hlater
    rw [hsame]
    rcases hconn conn hc with hold | ⟨hnew, _⟩
    · exact h.youngest conn later hold hlater
    · exact h.unused later (by omega)
  · intro conn hc a ha
    rw [hsame] at ha
    rcases hconn conn hc with hold | ⟨hnew, _⟩
    · exact h.inUse conn hold a ha
    · rw [h.unused conn hnew] at ha
      cases ha
  · intro conn
    rw [hsame]
    exact h.past conn
  · have hpublished : s'.published = s.published := by
      have hnone : calls.filterMap Call.delivered = [] :=
        List.filterMap_eq_nil_iff.mpr fun c hc => Call.delivered_of_not_publishes (hcalls c hc)
      unfold published
      rw [hlog, List.filterMap_append, hnone, List.append_nil]
    have hdelivered : s'.deliveredOn = s.deliveredOn := by
      unfold deliveredOn
      rw [hsame]
    rw [hpublished, hdelivered, h.whole]
    exact (flatMap_range_of_nil hlength fun conn hc => by rw [deliveredOn, h.unused conn hc]; rfl).symm

theorem quietly (h : s.Orderly) (hquiet : Quietly s s')
    (hconn : ∀ conn : Nat, s'.conn = some conn →
      s.conn = some conn ∨ s.log.length ≤ conn ∧ conn < s'.log.length) : s'.Orderly := by
  obtain ⟨calls, hlog, hcalls⟩ := hquiet.log
  exact h.more hlog (fun c hc => Call.not_publishes_of_quiet (hcalls c hc)) hconn

theorem note (h : s.Orderly) (c : Call) (hc : c.publishes = false) : (s.call c).Orderly :=
  h.more (show (s.call c).log = s.log ++ [c] from rfl) (List.forall_mem_singleton.mpr hc)
    fun _ hconn => .inl hconn

theorem of_same (h : s.Orderly) (hlog : s'.log = s.log) (hconn : s'.conn = s.conn) : s'.Orderly :=
  h.more (hlog.trans (List.append_nil _).symm) (fun _ hc => absurd hc List.not_mem_nil)
    fun _ hc => .inl (hconn.symm.trans hc)

theorem check (hs : s.Sound) (h : s.Orderly) : (n2aAmqpCheck o b s).2.Orderly := by
  apply h.quietly (n2aAmqpCheck_spec hs).1
  intro conn hconn
  rcases n2aAmqpCheck_cases o b s with ⟨_, hcheck⟩ | ⟨_, _, hcheck⟩ | ⟨_, _, hcheck | ⟨_, hcheck⟩⟩
  · rw [hcheck] at hconn
    exact .inl hconn
  · rw [hcheck] at hconn
    exact .inl hconn
  · rw [hcheck] at hconn
    exact .inl hconn
  · obtain ⟨closing, answers, hconnects⟩ := n2aAmqpConnect_connects o b (gettimeofday b s).2
    have hlength : (gettimeofday b s).2.log.length = s.log.length + 1 := List.length_append
    rw [hcheck] at hconn ⊢
    rw [hconnects.conn, hlength] at hconn
    rw [hconnects.log, List.length_append, List.length_append, List.length_cons, List.length_cons, hlength]
    cases hconn
    exact .inr (by omega)

theorem disconnect (h : s.Orderly) : (n2aAmqpDisconnect b s).Orderly := by
  apply h.quietly (n2aAmqpDisconnect_quietly s)
  intro conn hconn
  obtain ⟨_, hdisconnects⟩ := n2aAmqpDisconnect_disconnects b s
  rw [hdisconnects.conn] at hconn
  cases hconn

/-! ## A publication -/

theorem attempts_publication (ev : Event) (conn : Connection) :
    (s.call (publication o b ev s)).attempts conn =
      s.attempts conn ++ if s.conn = some conn then [(ev, b.basicPublish s.log.length)] else [] := by
  unfold attempts Session.call publication
  rw [List.filterMap_append]
  apply congrArg
  by_cases hconn : s.conn = some conn
  · rw [if_pos hconn]
    simp [Call.attempt, hconn]
  · rw [if_neg hconn]
    simp [Call.attempt, hconn]

theorem deliveredOn_publication (ev : Event) (conn : Connection) :
    (s.call (publication o b ev s)).deliveredOn conn =
      s.deliveredOn conn ++
        if s.conn = some conn ∧ 0 ≤ b.basicPublish s.log.length then [ev] else [] := by
  unfold deliveredOn takenOver
  rw [attempts_publication, List.filterMap_append]
  apply congrArg
  by_cases hconn : s.conn = some conn
  · by_cases hok : 0 ≤ b.basicPublish s.log.length <;> simp [hconn, hok]
  · simp [hconn]

theorem whole_publication (h : s.Orderly) {connection : Nat} (hconn : s.conn = some connection) (ev : Event) :
    (s.call (publication o b ev s)).published =
      (List.range (s.log.length + 1)).flatMap (s.call (publication o b ev s)).deliveredOn := by
  have hknown := h.known connection hconn
  have hyoungest : ∀ later, connection < later → s.deliveredOn later = [] := by
    intro later hlater
    rw [deliveredOn, h.youngest connection later hconn hlater]
    rfl
  have hbefore : (List.range connection).flatMap (s.call (publication o b ev s)).deliveredOn =
      (List.range connection).flatMap s.deliveredOn := by
    apply List.flatMap_congr
    intro conn hmem
    have hother : s.conn ≠ some conn := by
      intro hsame
      cases hconn.symm.trans hsame
      exact Nat.lt_irrefl _ (List.mem_range.mp hmem)
    rw [deliveredOn_publication, if_neg fun hboth => hother hboth.1, List.append_nil]
  have hbehind : ∀ later, connection + 1 ≤ later → (s.call (publication o b ev s)).deliveredOn later = [] := by
    intro later hlater
    have hother : s.conn ≠ some later := by
      intro hsame
      cases hconn.symm.trans hsame
      exact Nat.lt_irrefl _ hlater
    rw [deliveredOn_publication, if_neg fun hboth => hother hboth.1, List.append_nil]
    exact hyoungest later hlater
  rw [Session.call_published, h.whole, flatMap_range_of_nil hknown hyoungest,
    flatMap_range_of_nil (Nat.succ_le_succ (Nat.le_of_lt hknown)) hbehind, List.range_succ, List.flatMap_append,
    List.flatMap_append, hbefore, List.append_assoc]
  apply congrArg
  rw [List.flatMap_cons, List.flatMap_cons, List.flatMap_nil, List.flatMap_nil, List.append_nil, List.append_nil,
    deliveredOn_publication]
  apply congrArg
  by_cases hok : 0 ≤ b.basicPublish s.log.length <;> simp [publication, Call.delivered, hconn, hok]

theorem published (h : s.Orderly) (hin : s.conn ≠ none) (ev : Event) (hok : 0 ≤ b.basicPublish s.log.length) :
    (s.call (publication o b ev s)).Orderly := by
  have hlog : (s.call (publication o b ev s)).log.length = s.log.length + 1 := List.length_append
  obtain ⟨connection, hconnection⟩ := Option.ne_none_iff_exists'.mp hin
  constructor
  · intro conn hconn
    have hknown := h.known conn hconn
    rw [hlog]
    omega
  · intro conn hlength
    rw [hlog] at hlength
    have hother : s.conn ≠ some conn := fun hsame => by
      have hknown := h.known conn hsame
      omega
    rw [attempts_publication, if_neg hother, List.append_nil]
    exact h.unused conn (by omega)
  · intro conn later hconn hlater
    have hother : s.conn ≠ some later := by
      intro hsame
      cases (show s.conn = some conn from hconn).symm.trans hsame
      exact Nat.lt_irrefl _ hlater
    rw [attempts_publication, if_neg hother, List.append_nil]
    exact h.youngest conn later hconn hlater
  · intro conn hconn a ha
    rw [attempts_publication, if_pos (show s.conn = some conn from hconn)] at ha
    rcases List.mem_append.mp ha with hold | hnew
    · exact h.inUse conn hconn a hold
    · rw [List.mem_singleton.mp hnew]
      exact hok
  · intro conn
    rw [attempts_publication]
    split
    · rename_i hconn
      exact failsLast_append (h.inUse conn hconn) _
    · rw [List.append_nil]
      exact h.past conn
  · rw [hlog]
    exact h.whole_publication hconnection ev

theorem forgotten {t : Session} (hunused : ∀ conn : Nat, t.log.length ≤ conn → t.attempts conn = [])
    (hpast : ∀ conn, FailsLast (t.attempts conn))
    (hwhole : t.published = (List.range t.log.length).flatMap t.deliveredOn) :
    Orderly { t with conn := none } where
  known := fun _ h => by cases h
  unused := hunused
  youngest := fun _ _ h => by cases h
  inUse := fun _ h => by cases h
  past := hpast
  whole := hwhole

theorem failed (h : s.Orderly) (hin : s.conn ≠ none) (ev : Event) :
    Orderly { s.call (publication o b ev s) with conn := none } := by
  have hlog : (s.call (publication o b ev s)).log.length = s.log.length + 1 := List.length_append
  obtain ⟨connection, hconnection⟩ := Option.ne_none_iff_exists'.mp hin
  apply forgotten
  · intro conn hunused
    rw [hlog] at hunused
    have hother : s.conn ≠ some conn := fun hsame => by
      have hknown := h.known conn hsame
      omega
    rw [attempts_publication, if_neg hother, List.append_nil]
    exact h.unused conn (by omega)
  · intro conn
    rw [attempts_publication]
    split
    · rename_i hc
      exact failsLast_append (h.inUse conn hc) _
    · rw [List.append_nil]
      exact h.past conn
  · rw [hlog]
    exact h.whole_publication hconnection ev

theorem publish (ev : Event) (hs : s.Sound) (h : s.Orderly) : (n2aAmqpPublish o b ev s).2.Orderly := by
  have hchecked := h.check (o := o) (b := b) hs
  have hsound := (n2aAmqpCheck_spec (o := o) (b := b) hs).2.1
  rcases n2aAmqpPublish_cases ev hs rfl with ⟨_, hr⟩ | ⟨hconnected, hok, hr⟩ | ⟨hconnected, _, hr⟩
  · rw [hr]
    exact hchecked.note _ rfl
  · rw [hr]
    exact (hchecked.published (hsound.connected hconnected).1 ev hok).note _ rfl
  · rw [hr]
    have hclosed := n2aAmqpDisconnect_quietly (b := b)
      { (n2aAmqpCheck o b s).2.call (publication o b ev (n2aAmqpCheck o b s).2) with amqpErrors := true }
    obtain ⟨_, hdisconnects⟩ := n2aAmqpDisconnect_disconnects b
      { (n2aAmqpCheck o b s).2.call (publication o b ev (n2aAmqpCheck o b s).2) with amqpErrors := true }
    have hforgotten := hchecked.failed (hsound.connected hconnected).1 (o := o) (b := b) ev
    obtain ⟨calls, hlog, hcalls⟩ := hclosed.log
    have hdone := hforgotten.more hlog (fun c hc => Call.not_publishes_of_quiet (hcalls c hc)) fun conn hconn => by
      rw [hdisconnects.conn] at hconn
      cases hconn
    exact hdone.note _ rfl

theorem held : Session.Held o b Orderly where
  note := fun _ c hc _ h => h.note c hc
  timer := fun _ _ h => h.of_same rfl rfl
  mark := fun _ _ h => h.of_same rfl rfl
  check := fun _ hs h => h.check hs
  publish := fun _ ev hs h => h.publish ev hs
  disconnect := fun _ h => h.disconnect

end Session.Orderly

theorem State.run_orderly (o : Options) (w : Env) (f : Fifo) (ops : List Op) :
    ((loaded f).run o w ops).amqp.Orderly :=
  Session.Orderly.held.run Session.loaded_sound Session.Orderly.loaded ops

end Neb2Amqp
