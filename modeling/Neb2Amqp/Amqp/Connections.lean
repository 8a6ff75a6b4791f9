import Neb2Amqp.Amqp.Calls
import Neb2Amqp.Library.Handles
import Neb2Amqp.Library.Run

/-!
# Connection objects

Every `amqp_connection_state_t` comes from `amqp_new_connection` and goes to
`amqp_destroy_connection`, from two functions: `n2a_amqp_connect` destroys whatever
`conn` points to, `n2a_amqp_disconnect` only a connection in use, and sets `conn` to
NULL in either case. A connection that could not be opened is lost there.
-/

namespace Neb2Amqp

open CLib HandleCall

/-- What a call does with a connection object. -/
def Call.handleCall : Call → Option (HandleCall (Option Connection))
  | .newConnection conn => some (.acquire (some conn))
  | .socketOpen conn .. => some (.use conn)
  | .login conn .. => some (.use conn)
  | .channelOpen conn => some (.use conn)
  | .exchangeDeclare conn .. => some (.use conn)
  | .getRpcReply conn _ => some (.use conn)
  | .channelClose conn _ => some (.use conn)
  | .connectionClose conn _ => some (.use conn)
  | .destroyConnection conn _ => some (.release conn)
  | .basicPublish conn .. => some (.use conn)
  | _ => none

def Session.handles (s : Session) : List (HandleCall (Option Connection)) :=
  s.log.filterMap Call.handleCall

/-- No connection object is destroyed twice or used outside its lifetime, and as many
are destroyed as are made, save for the one `conn` points to. -/
structure State.ConnectionsKept (s : State) : Prop where
  disciplined : Disciplined s.amqp.handles
  destroyed_once : (released s.amqp.handles).Nodup
  balance : (acquired s.amqp.handles).length =
    (released s.amqp.handles).length + s.amqp.conn.toList.length

/-- The step sets `conn` to NULL while it points to a connection that is not in use. -/
def State.Forgets (s : State) : Op → Prop
  | .amqpDisconnect => s.amqp.conn ≠ none ∧ s.amqp.amqpConnected = false
  | .toggleBlackout =>
      s.amqp.blackout = false ∧ s.amqp.conn ≠ none ∧ s.amqp.amqpConnected = false
  | _ => False

/-! ## The session -/

/-- `conn` points to a live object, and `lost` objects are live that nothing points to. -/
structure Session.Owns (lost : Nat) (s : Session) : Prop where
  holds : Holds s.handles (s.conn.map some) lost
  fresh : ∀ c : Nat, some c ∈ acquired s.handles → c < s.log.length

namespace Session.Owns

variable {lost : Nat} {s : Session}

theorem loaded : Owns 0 .loaded := ⟨.nil, fun _ hc => absurd hc List.not_mem_nil⟩

theorem call (h : Owns lost s) {c : Call} (hc : c.handleCall = none) : Owns lost (s.call c) := by
  have hsame : (s.call c).handles = s.handles := by
    simp [handles, Session.call, hc]
  refine ⟨?_, fun a ha => ?_⟩
  · rw [hsame]
    exact h.holds
  · rw [hsame] at ha
    have hold := h.fresh a ha
    simp only [Session.call, List.length_append]
    omega

theorem of_same (h : Owns lost s) {s' : Session} (hconn : s'.conn = s.conn) (hlog : s'.log = s.log) :
    Owns lost s' := by
  have hsame : s'.handles = s.handles := congrArg (List.filterMap Call.handleCall) hlog
  refine ⟨?_, fun a ha => ?_⟩
  · rw [hsame, hconn]
    exact h.holds
  · rw [hlog]
    exact h.fresh a (hsame ▸ ha)

theorem closes (h : Owns lost s) (hconn : s.conn ≠ none) {closing : List Call}
    (hcloses : Closes s.conn closing) :
    Holds (s.handles ++ closing.filterMap Call.handleCall) none lost ∧
      acquired (s.handles ++ closing.filterMap Call.handleCall) = acquired s.handles := by
  obtain ⟨c, hc⟩ := Option.ne_none_iff_exists'.mp hconn
  obtain ⟨r₁, r₂, status, rfl⟩ := hcloses
  have hcalls : [Call.channelClose s.conn r₁, .connectionClose s.conn r₂,
      .destroyConnection s.conn status].filterMap Call.handleCall =
      [.use (some c), .use (some c)] ++ [.release (some c)] := by
    rw [hc]
    rfl
  have hholds := h.holds
  rw [hc] at hholds
  rw [hcalls, ← List.append_assoc]
  have hused : Holds (s.handles ++ [.use (some c), .use (some c)]) (some (some c)) lost :=
    hholds.uses (by simp)
  refine ⟨hused.release, ?_⟩
  simp [acquired]

theorem closed (h : Owns lost s) {closing : List Call}
    (hcloses : (s.conn = none ∧ closing = []) ∨ (s.conn ≠ none ∧ Closes s.conn closing)) :
    Holds (s.handles ++ closing.filterMap Call.handleCall) none lost ∧
      acquired (s.handles ++ closing.filterMap Call.handleCall) = acquired s.handles := by
  rcases hcloses with ⟨hconn, rfl⟩ | ⟨hconn, hcloses⟩
  · have hholds := h.holds
    rw [hconn] at hholds
    rw [List.filterMap_nil, List.append_nil]
    exact ⟨hholds, rfl⟩
  · exact h.closes hconn hcloses

variable {o : Options} {b : Broker}

theorem connect (h : Owns lost s) : Owns lost (n2aAmqpConnect o b s).2 := by
  obtain ⟨closing, answers, hconnects⟩ := n2aAmqpConnect_connects o b s
  generalize (n2aAmqpConnect o b s).2 = s' at hconnects
  obtain ⟨hclosed, hacquired⟩ := h.closed hconnects.closes
  have hanswers : ∀ x ∈ answers.filterMap Call.handleCall, x = .use s'.conn := by
    intro x hx
    obtain ⟨c, hc, hcall⟩ := List.mem_filterMap.mp hx
    have hasks := hconnects.asks c hc
    cases c with
    | socketOpen | login | channelOpen | exchangeDeclare | getRpcReply =>
        cases hcall
        rw [show _ = s'.conn from hasks]
    | _ => cases hasks
  have hhandles : s'.handles = s.handles ++ closing.filterMap Call.handleCall ++
      [.acquire (some (s.log.length + 1 + closing.length))] ++
        answers.filterMap Call.handleCall := by
    simp only [Session.handles, hconnects.log, List.filterMap_append, List.filterMap_cons,
      Call.handleCall, List.append_assoc, List.cons_append, List.nil_append]
  have hfresh : some (s.log.length + 1 + closing.length) ∉
      acquired (s.handles ++ closing.filterMap Call.handleCall) := by
    rw [hacquired]
    intro hmem
    have hlt := h.fresh _ hmem
    omega
  have hopened := hclosed.acquire hfresh
  rw [← hconnects.conn] at hopened hhandles
  have hheld : Holds s'.handles (some s'.conn) lost := by
    rw [hhandles]
    exact hopened.uses hanswers
  have hlength : s.log.length + 1 + closing.length < s'.log.length := by
    rw [hconnects.log]
    simp only [List.length_append, List.length_cons]
    omega
  refine ⟨?_, fun a ha => ?_⟩
  · have hpoints : s'.conn.map some = some s'.conn := by rw [hconnects.conn]; rfl
    rw [hpoints]
    exact hheld
  · have hnone : acquired (answers.filterMap Call.handleCall) = [] := by
      apply List.filterMap_eq_nil_iff.mpr
      intro x hx
      rw [hanswers x hx]
    rw [hhandles, acquired_append, acquired_append, hacquired, hnone, List.append_nil] at ha
    rcases List.mem_append.mp ha with hold | hnew
    · have hlt := h.fresh a hold
      have hgrown : s.log.length ≤ s'.log.length := by omega
      exact Nat.lt_of_lt_of_le hlt hgrown
    · rw [hconnects.conn] at hnew
      cases List.mem_singleton.mp hnew
      exact hlength

theorem disconnect (h : Owns lost s) (hs : s.amqpConnected = true → s.conn ≠ none) :
    Owns (lost + if s.conn ≠ none ∧ s.amqpConnected = false then 1 else 0)
      (n2aAmqpDisconnect b s) := by
  obtain ⟨closing, hdisconnects⟩ := n2aAmqpDisconnect_disconnects b s
  generalize n2aAmqpDisconnect b s = s' at hdisconnects
  have hhandles : s'.handles = s.handles ++ closing.filterMap Call.handleCall := by
    rw [Session.handles, hdisconnects.log, List.filterMap_append]
    rfl
  have hlength : s.log.length ≤ s'.log.length := by
    rw [hdisconnects.log, List.length_append]
    exact Nat.le_add_right _ _
  have hholds : Holds s'.handles none (lost + if s.conn ≠ none ∧ s.amqpConnected = false then 1
      else 0) ∧ acquired s'.handles = acquired s.handles := by
    rw [hhandles]
    rcases hdisconnects.closes with ⟨hconnected, rfl⟩ | ⟨hconnected, hcloses⟩
    · have hholds := h.holds
      rw [List.filterMap_nil, List.append_nil]
      cases hconn : s.conn with
      | none =>
          rw [hconn] at hholds
          exact ⟨hholds, rfl⟩
      | some c =>
          rw [hconn] at hholds
          rw [if_pos ⟨Option.some_ne_none c, hconnected⟩]
          exact ⟨hholds.forget, rfl⟩
    · rw [if_neg fun hnot => Bool.noConfusion (hconnected.symm.trans hnot.2)]
      exact h.closes (hs hconnected) hcloses
  refine ⟨?_, fun a ha => ?_⟩
  · rw [hdisconnects.conn]
    exact hholds.1
  · rw [hholds.2] at ha
    exact Nat.lt_of_lt_of_le (h.fresh a ha) hlength

theorem disconnect_used (h : Owns lost s) (hconn : s.conn ≠ none) (hconnected : s.amqpConnected = true) :
    Owns lost (n2aAmqpDisconnect b s) := by
  have hdisconnected := h.disconnect (b := b) fun _ => hconn
  rw [if_neg fun hnot => Bool.noConfusion (hconnected.symm.trans hnot.2)] at hdisconnected
  exact hdisconnected

theorem kept (lost : Nat) : Session.Kept o b (Owns lost) where
  note s c hc h := by
    apply h.call
    cases c with
    | gettimeofday | published | push => rfl
    | _ => cases hc
  connect s _ _ h := (h.call (c := .gettimeofday _) rfl).connect
  publish s ev hconn h := by
    obtain ⟨c, hc⟩ := Option.ne_none_iff_exists'.mp hconn
    have hhandles : (s.call (publication o b ev s)).handles = s.handles ++ [.use s.conn] := by
      simp [handles, Session.call, publication, Call.handleCall]
    have hholds := h.holds
    refine ⟨?_, fun a ha => ?_⟩
    · rw [hc] at hholds
      rw [hhandles, show (s.call (publication o b ev s)).conn = s.conn from rfl, hc]
      exact hholds.uses (List.forall_mem_singleton.mpr rfl)
    · rw [hhandles, acquired_append, show acquired [HandleCall.use s.conn] = [] from rfl,
        List.append_nil] at ha
      have hlt := h.fresh a ha
      simp only [Session.call, List.length_append]
      omega
  disconnect s hconn hconnected h := h.disconnect_used hconn hconnected

end Session.Owns

/-! ## Runs -/

instance (s : State) (op : Op) : Decidable (s.Forgets op) := by
  cases op <;> unfold State.Forgets <;> infer_instance

variable {o : Options} {w : Env}

theorem State.connectionsKept_iff_owns {s : State} {lost : Nat} (h : s.amqp.Owns lost) :
    s.ConnectionsKept ↔ lost = 0 := by
  have hbalance := h.holds.balance
  have hheld : (s.amqp.conn.map some).toList.length = s.amqp.conn.toList.length := by
    cases s.amqp.conn <;> rfl
  rw [hheld] at hbalance
  constructor
  · intro hkept
    have hequal := hkept.balance
    omega
  · rintro rfl
    exact ⟨h.holds.disciplined, h.holds.disciplined.released_nodup, hbalance⟩

theorem n2aSendEvent_owns (ev : Event) {s : State} {lost : Nat} (hs : s.amqp.Sound)
    (h : s.amqp.Owns lost) : (n2aSendEvent o w ev s).2.amqp.Owns lost := by
  have hkept := Session.Owns.kept (o := o) (b := w.broker) lost
  apply hkept.sendEvent _ (fun s timestamp h => h.call rfl) ev hs h
  apply hkept.flushQueue
  · exact fun s timestamp h => h.call rfl
  · exact fun s timestamp h => h.of_same rfl rfl

/-- A step loses at most the connection it forgets. -/
theorem State.step_owns {s : State} {lost : Nat} (hs : s.amqp.Sound) (h : s.amqp.Owns lost)
    (op : Op) : (s.step o w op).amqp.Owns (lost + if s.Forgets op then 1 else 0) := by
  have hdisconnected := h.disconnect (b := w.broker) fun hc => (hs.connected hc).1
  cases op with
  | sendEvent ev => exact n2aSendEvent_owns ev hs h
  | amqpCheck => exact (Session.Owns.kept lost).check h
  | amqpDisconnect => exact hdisconnected
  | toggleBlackout =>
      rcases n2aToggleBlackout_cases w.broker s.amqp with
        ⟨hblackout, htoggle⟩ | ⟨hblackout, htoggle⟩
      · have hforgets : s.Forgets .toggleBlackout ↔
            s.amqp.conn ≠ none ∧ s.amqp.amqpConnected = false :=
          ⟨fun hf => hf.2, fun hf => ⟨hblackout, hf⟩⟩
        change Session.Owns _ (n2aToggleBlackout w.broker s.amqp).2
        rw [htoggle, if_congr hforgets rfl rfl]
        exact hdisconnected.of_same rfl rfl
      · have hkeeps : ¬ s.Forgets .toggleBlackout :=
          fun hf => Bool.noConfusion (hblackout.symm.trans hf.1)
        change Session.Owns _ (n2aToggleBlackout w.broker s.amqp).2
        rw [htoggle, if_neg hkeeps]
        exact h.of_same rfl rfl

/-- A run keeps its connection objects in order up to every step exactly if no step
disconnects while `conn` points to a connection that could not be opened. -/
theorem State.run_connectionsKept_iff (o : Options) (w : Env) (f : Fifo) (ops : List Op) :
    Always (fun s op => some (s.step o w op)) ConnectionsKept (loaded f) ops ↔
      Each (fun s op => some (s.step o w op)) (fun s op => ¬ s.Forgets op) (loaded f) ops := by
  let Inv (s : State) : Prop := s.amqp.Sound ∧ s.amqp.Owns 0
  have hiff : ∀ s op s', Inv s → some (s.step o w op) = some s' →
      (s'.ConnectionsKept ↔ ¬ s.Forgets op) := by
    intro s op s' hinv hstep
    cases hstep
    rw [connectionsKept_iff_owns (step_owns hinv.1 hinv.2 op)]
    split <;> simp_all
  have hkeep : ∀ s op s', Inv s → some (s.step o w op) = some s' → s'.ConnectionsKept → Inv s' := by
    intro s op s' hinv hstep hkept
    cases hstep
    have hnext := step_owns (o := o) (w := w) hinv.1 hinv.2 op
    rw [(connectionsKept_iff_owns hnext).mp hkept] at hnext
    exact ⟨step_sound hinv.1 op, hnext⟩
  exact always_iff_each hiff hkeep ⟨Session.loaded_sound, .loaded⟩

/-- A broker that refuses every connection. -/
def Env.refusing : Env :=
  { Env.reliable with broker := { Env.reliable.broker with socketOpen := fun _ => -1 } }

/-- The connection made by the first check is neither destroyed nor pointed to after the
blackout. -/
theorem State.refused_connection_lost :
    ¬ Always (fun s op => some (s.step Options.default .refusing op)) ConnectionsKept
      (loaded (.created 10 ⟨none, []⟩)) [.amqpCheck, .toggleBlackout] := by
  intro hkept
  have hbalance := ((hkept _ rfl).2 _ rfl).1.balance
  revert hbalance
  decide +kernel

/-- Whatever it loses, a run destroys no connection object twice and uses none outside
its lifetime. -/
theorem State.run_disciplined (o : Options) (w : Env) (f : Fifo) (ops : List Op) :
    Disciplined ((loaded f).run o w ops).amqp.handles ∧
      (released ((loaded f).run o w ops).amqp.handles).Nodup := by
  have hrun : ∀ {s : State} {lost : Nat}, s.amqp.Sound → s.amqp.Owns lost →
      ∃ lost', (s.run o w ops).amqp.Owns lost' := by
    induction ops with
    | nil => exact fun _ h => ⟨_, h⟩
    | cons op ops ih => exact fun hs h => ih (step_sound hs op) (step_owns hs h op)
  obtain ⟨lost, h⟩ := hrun (s := loaded f) Session.loaded_sound .loaded
  exact ⟨h.holds.disciplined, h.holds.disciplined.released_nodup⟩

end Neb2Amqp
