import Neb2Amqp.Amqp.AllEvents
import Neb2Amqp.Events.Keys
import Neb2Amqp.Library.Run

/-!
# Keys of the length AMQP can carry

The method `basic.publish` carries its routing key with a length of one byte. The module
cuts keys at `max_size`, which is meant for messages. An event may be published at once,
or wait in the queue and in the cache file, beyond the end of the module and its next
start.
-/

namespace Neb2Amqp

open CLib

/-- The longest string with a length of one byte. -/
def shortstrMax : Nat := 255

def Event.KeyFits (ev : Event) : Prop := ev.rk.strlen ≤ shortstrMax

/-- The key joined from these parts is short enough, or `max_size` makes it so. -/
def KeyShort (o : Options) (realloc : Nat → Bool) (parts : List (Option CString)) : Prop :=
  keyLength realloc parts ≤ shortstrMax ∨
    (0 ≤ o.maxSize.toInt ∧ o.maxSize.toInt ≤ shortstrMax)

theorem routingKey_strlen_le {o : Options} {realloc : Nat → Bool} {parts : List (Option CString)}
    {key : CString} (hkey : routingKey o realloc parts = some key) (hshort : KeyShort o realloc parts) :
    key.strlen ≤ shortstrMax := by
  have hlength := xstrlen_key realloc parts
  have huint : uintMax = 4294967295 := rfl
  have hmax : shortstrMax = 255 := rfl
  rw [routingKey_eq] at hkey
  split at hkey
  · rename_i hcut
    split at hkey
    · obtain ⟨joined, -, rfl⟩ := Option.map_eq_some_iff.mp hkey
      rw [CString.strlen_take]
      rcases hshort with hshort | hshort <;> omega
    · cases hkey
  · rename_i hwhole
    rw [hkey, xstrlen_some] at hlength
    rcases hshort with hshort | hshort <;> omega

/-- Exactly these keys are short, where memory suffices for what is cut off. -/
theorem routingKey_fits_iff {o : Options} {realloc : Nat → Bool} {parts : List (Option CString)}
    (hshrinks : realloc parts.length = true) :
    (∀ key, routingKey o realloc parts = some key → key.strlen ≤ shortstrMax) ↔
      KeyShort o realloc parts := by
  have hlength := xstrlen_key realloc parts
  have huint : uintMax = 4294967295 := rfl
  have hmax : shortstrMax = 255 := rfl
  constructor
  · intro hall
    by_contra hlong
    obtain ⟨hkey, hbound⟩ := not_or.mp hlong
    cases hjoined : n2aStrJoin realloc (.lit ".") parts with
    | none =>
        rw [hjoined] at hlength
        change 0 = _ at hlength
        omega
    | some joined =>
        rw [hjoined, xstrlen_some] at hlength
        have hsent := routingKey_eq o realloc parts
        rw [hjoined, hshrinks] at hsent
        split at hsent
        · have hcut := hall _ hsent
          rw [CString.strlen_take] at hcut
          omega
        · have hwhole := hall _ hsent
          omega
  · exact fun hshort key hkey => routingKey_strlen_le hkey hshort

/-! ## The keys of all events -/

namespace NebEvent

variable (o : Options) (realloc refRealloc : Nat → Bool)

def key : NebEvent → Option CString
  | .serviceCheck c => serviceCheckKey o realloc c
  | .other (.hostCheck c) => hostCheckKey o realloc c
  | .other (.acknowledgement c) => acknowledgementKey o realloc c
  | .other (.downtime c) => downtimeKey o realloc c

/-- What its key is joined from; nothing for an acknowledgement or a downtime of
another type. -/
def keyParts : NebEvent → List (Option CString)
  | .serviceCheck c => serviceCheckParts o c.hostName c.serviceDescription
  | .other (.hostCheck c) => hostCheckParts o c.hostName
  | .other (.acknowledgement c) =>
      if c.acknowledgementType = hostAcknowledgement then
        [o.connector, o.eventsourceName, some (.lit "ack"), some (.lit "component"), c.hostName]
      else if c.acknowledgementType = serviceAcknowledgement then
        [o.connector, o.eventsourceName, some (.lit "ack"), some (.lit "resource"), c.hostName,
          c.serviceDescription]
      else []
  | .other (.downtime c) =>
      if c.downtimeType = hostDowntime then
        [o.connector, o.eventsourceName, some (.lit "downtime"), some (.lit "component"), c.hostName]
      else if c.downtimeType = serviceDowntime then
        [o.connector, o.eventsourceName, some (.lit "downtime"), some (.lit "resource"), c.hostName,
          c.serviceDescription]
      else []

theorem routingKey_nil : routingKey o realloc [] = none := by
  rw [routingKey_eq]
  split
  · split <;> rfl
  · rfl

theorem key_eq (e : NebEvent) : e.key o realloc = routingKey o realloc (e.keyParts o) := by
  cases e with
  | serviceCheck c => rfl
  | other e =>
      cases e with
      | hostCheck c => rfl
      | acknowledgement c =>
          unfold key keyParts acknowledgementKey
          simp only []
          split
          · rfl
          · split
            · rfl
            · exact (routingKey_nil o realloc).symm
      | downtime c =>
          unfold key keyParts downtimeKey
          simp only []
          split
          · rfl
          · split
            · rfl
            · exact (routingKey_nil o realloc).symm

variable (printf : UInt64 → Option CString)

/-- The callback for the event. -/
def handle (w : Env) (s : State) : NebEvent → Except Fault State
  | .serviceCheck c => n2aEventServiceCheck printf o realloc w c s
  | .other (.hostCheck c) => n2aEventHostCheck printf o realloc w c s
  | .other (.acknowledgement c) => n2aEventAcknowledgement printf o realloc refRealloc w c s
  | .other (.downtime c) => n2aEventDowntime printf o realloc w c s

variable {o realloc refRealloc printf}

theorem messages_key {e : NebEvent} {messages : List Message}
    (h : e.messages printf o realloc refRealloc = .ok messages) :
    ∀ m ∈ messages, m.key = e.key o realloc := by
  cases e with
  | serviceCheck c => exact serviceCheckMessages_key h
  | other e =>
      cases h
      cases e with
      | hostCheck c | acknowledgement c | downtime c =>
          intro m hm
          simp only [OtherEvent.messages, hostCheckMessages, acknowledgementMessages,
            downtimeMessages] at hm
          split at hm
          · rw [List.mem_singleton.mp hm]
            rfl
          · exact absurd hm List.not_mem_nil

/-- An event that is handled to its end is a run of `n2a_send_event`. -/
theorem handle_run {e : NebEvent} {w : Env} {s s' : State}
    (h : e.handle o realloc refRealloc printf w s = .ok s') :
    ∃ messages, e.messages printf o realloc refRealloc = .ok messages ∧
      (messages = [] ∧ s' = s ∨ ∃ key, e.key o realloc = some key ∧
        s' = s.run o w (messages.map fun m => .sendEvent ⟨key, m.payload⟩)) := by
  obtain ⟨messages, hmessages, hfold⟩ : ∃ messages,
      e.messages printf o realloc refRealloc = .ok messages ∧
        messages.foldlM (sendMessage o w) s = .ok s' := by
    cases e with
    | serviceCheck c => exact bind_ok h
    | other e => cases e <;> exact ⟨_, rfl, h⟩
  have hkeys := messages_key hmessages
  refine ⟨messages, hmessages, ?_⟩
  cases messages with
  | nil =>
      cases hfold
      exact Or.inl ⟨rfl, rfl⟩
  | cons m messages =>
      cases hkey : e.key o realloc with
      | none =>
          have hnull : sendMessage o w s m = .error .nullKey := by
            rw [sendMessage, hkeys m List.mem_cons_self, hkey]
          rw [List.foldlM_cons, hnull] at hfold
          cases hfold
      | some key =>
          rw [hkey] at hkeys
          rw [foldlM_sendMessage hkeys] at hfold
          cases hfold
          exact Or.inr ⟨key, rfl, rfl⟩

/-- The events it hands to `n2a_send_event`. -/
def sent (printf : UInt64 → Option CString) (o : Options) (realloc refRealloc : Nat → Bool)
    (e : NebEvent) : List Event :=
  match e.messages printf o realloc refRealloc with
  | .ok messages => messages.filterMap fun m => m.key.map (⟨·, m.payload⟩)
  | .error _ => []

theorem handle_holds {A : Prop} {P : Event → Prop} {e : NebEvent} {w : Env} {s s' : State}
    (hfile : A → w.file.AllSucceed) (h : e.handle o realloc refRealloc printf w s = .ok s')
    (hsent : ∀ ev ∈ e.sent printf o realloc refRealloc, P ev)
    (hempty : P ⟨.ofBytes [], .ofBytes []⟩) (hs : s.amqp.Sound) (hholds : s.Holds A P) :
    s'.amqp.Sound ∧ s'.Holds A P := by
  obtain ⟨messages, hmessages, hrun⟩ := handle_run h
  rcases hrun with ⟨-, rfl⟩ | ⟨key, hkey, rfl⟩
  · exact ⟨hs, hholds⟩
  · have hevents : ∀ m ∈ messages, P ⟨key, m.payload⟩ := by
      intro m hm
      apply hsent
      rw [sent, hmessages]
      apply List.mem_filterMap.mpr
      exact ⟨m, hm, by rw [messages_key hmessages m hm, hkey]; rfl⟩
    clear hmessages hsent h
    induction messages generalizing s with
    | nil => exact ⟨hs, hholds⟩
    | cons m messages ih =>
        obtain ⟨hev, hrest⟩ := List.forall_mem_cons.mp hevents
        exact ih (n2aSendEvent_sound ⟨key, m.payload⟩ hs) (hholds.sendEvent hfile hempty hs hev) hrest

theorem sent_keyFits {e : NebEvent} (hshort : e.Handled → KeyShort o realloc (e.keyParts o)) :
    ∀ ev ∈ e.sent printf o realloc refRealloc, ev.KeyFits := by
  intro ev hev
  unfold sent at hev
  split at hev
  · rename_i messages hmessages
    obtain ⟨m, hm, hev⟩ := List.mem_filterMap.mp hev
    obtain ⟨key, hkey, rfl⟩ := Option.map_eq_some_iff.mp hev
    have hhandled : e.Handled := by
      by_contra hno
      rw [messages_of_not_handled realloc refRealloc hno] at hmessages
      cases hmessages
      exact absurd hm List.not_mem_nil
    rw [messages_key hmessages m hm, key_eq] at hkey
    exact routingKey_strlen_le hkey (hshort hhandled)
  · exact absurd hev List.not_mem_nil

end NebEvent

/-! ## The module from start to start -/

/-- The module in one of its lives, and all events handed over in this and the earlier
ones. -/
structure Life where
  env : Env
  state : State
  handed : List Event

/-- What happens to it. A restart reads the file that the end of the module saved, or
the one its process left behind when it was killed; the arrays of `n2a_load` hold
anything at first. -/
inductive Happening
  | event (e : NebEvent) (realloc refRealloc : Nat → Bool)
  | amqpCheck
  | toggleBlackout
  | amqpDisconnect
  | restart (killed : Bool) (env : Env) (stack : Bytes × Bytes)

/-- The file as the next start finds it. -/
def Life.leaves (l : Life) (killed : Bool) : Disk :=
  if killed then l.state.pFifo.disk else n2aFreeFifo l.env.file l.state.pFifo

/-- A step of which the code makes nothing, since it stops at a fault, ends the run. -/
def Life.step (printf : UInt64 → Option CString) (o : Options) (l : Life) : Happening → Option Life
  | .event e realloc refRealloc =>
      match e.handle o realloc refRealloc printf l.env l.state with
      | .ok s => some ⟨l.env, s, l.handed ++ e.sent printf o realloc refRealloc⟩
      | .error _ => none
  | .amqpCheck => some { l with state := l.state.step o l.env .amqpCheck }
  | .toggleBlackout => some { l with state := l.state.step o l.env .toggleBlackout }
  | .amqpDisconnect => some { l with state := l.state.step o l.env .amqpDisconnect }
  | .restart killed env stack =>
      let disk := l.leaves killed
      let fuel := (disk.content.getD []).length + 2
      (n2aFifoInit env.file env.malloc stack fuel o.cacheSize disk).map fun f =>
        ⟨env, .loaded f, l.handed⟩

/-- No key that has reached `amqp_basic_publish` is too long. -/
def Life.KeysFit (l : Life) : Prop := l.state.amqp.TriesOnly Event.KeyFits

/-- A text that goes through the cache file as a line of its own. -/
def Event.Stored (ev : Event) : Prop := ev.Unbroken ∧ ev.Fits

/-- The condition on a step: the key of an event is short as it is joined, or cut to be
short; a restart finds a file with events in it, all files did their work, and all
texts so far were lines that fit the arrays of `n2a_load`. -/
def Life.Careful (o : Options) (l : Life) : Happening → Prop
  | .event e realloc _ => e.Handled → KeyShort o realloc (e.keyParts o)
  | .restart killed env _ =>
      l.env.file.AllSucceed ∧ env.file.AllSucceed ∧ (l.leaves killed).content.getD [] ≠ [] ∧
        ∀ ev ∈ l.handed, ev.Stored
  | _ => True

/-- What is kept of every event: its key is short, and it can be stored as long as all
that were handed over can. -/
def Life.Kept (handed : List Event) (ev : Event) : Prop :=
  ev.KeyFits ∧ ((∀ h ∈ handed, h.Stored) → ev.Stored)

structure Life.Inv (l : Life) : Prop where
  sound : l.state.amqp.Sound
  holds : l.state.Holds l.env.file.AllSucceed (Life.Kept l.handed)

namespace Life

theorem kept_empty (handed : List Event) : Kept handed ⟨.ofBytes [], .ofBytes []⟩ :=
  ⟨Nat.zero_le _, fun _ => ⟨⟨by decide, by decide⟩, ⟨by decide, by decide⟩⟩⟩

theorem kept_keepsCut (handed : List Event) : KeepsCut (Kept handed) := by
  intro ev ev' hkept hrk hmsg
  have hrkLength : ev'.rk.strlen ≤ ev.rk.strlen := by
    rw [CString.strlen, hrk, List.length_dropLast]
    exact Nat.sub_le _ 1
  have hmsgLength : ev'.msg.strlen ≤ ev.msg.strlen := by
    rw [CString.strlen, hmsg, List.length_dropLast]
    exact Nat.sub_le _ 1
  refine ⟨Nat.le_trans hrkLength hkept.1, fun hall => ?_⟩
  obtain ⟨hunbroken, hfits⟩ := hkept.2 hall
  refine ⟨⟨fun hmem => ?_, fun hmem => ?_⟩, ⟨?_, ?_⟩⟩
  · rw [hrk] at hmem
    exact hunbroken.rk (List.dropLast_subset _ hmem)
  · rw [hmsg] at hmem
    exact hunbroken.msg (List.dropLast_subset _ hmem)
  · exact Nat.le_trans hrkLength hfits.rk
  · exact Nat.le_trans hmsgLength hfits.msg

theorem Kept.append {handed : List Event} {ev : Event} (h : Kept handed ev) (more : List Event) :
    Kept (handed ++ more) ev :=
  ⟨h.1, fun hall => h.2 fun ev' hmem => hall ev' (List.mem_append_left more hmem)⟩

variable {printf : UInt64 → Option CString} {o : Options}

theorem restart_inv {l : Life} (h : l.Inv) {killed : Bool} {env : Env} {stack : Bytes × Bytes}
    (hcareful : l.Careful o (.restart killed env stack)) {l' : Life}
    (hstep : l.step printf o (.restart killed env stack) = some l') : l'.Inv := by
  obtain ⟨hold, hnew, hne, hhanded⟩ := hcareful
  have hstored := h.holds.stored hold
  have hleaves : ∀ text, (l.leaves killed).content = some text →
      ∃ q, text = serialize q ∧ ∀ ev ∈ q, Kept l.handed ev := by
    unfold leaves
    cases killed with
    | true => exact hstored.content
    | false => exact hstored.freeFifo hold h.holds.queued
  obtain ⟨text, htext⟩ : ∃ text, (l.leaves killed).content = some text := by
    apply Option.ne_none_iff_exists'.mp
    intro hnone
    rw [hnone] at hne
    exact hne rfl
  obtain ⟨q, rfl, hq⟩ := hleaves text htext
  have hqne : q ≠ [] := by
    rintro rfl
    rw [htext] at hne
    exact hne rfl
  have hstorable : ∀ ev ∈ q, ev.Unbroken ∧ ev.Fits ∧ Kept l.handed ev := by
    intro ev hev
    obtain ⟨hunbroken, hfits⟩ := (hq ev hev).2 hhanded
    exact ⟨hunbroken, hfits, hq ev hev⟩
  obtain ⟨f, hinit, hall, hfile⟩ := n2aFifoInit_all hnew (m := env.malloc)
    (kept_keepsCut l.handed) stack o.cacheSize htext hqne hstorable
  have hfuel := hinit _ (Nat.le_refl _)
  simp only [step, htext, Option.getD_some, hfuel, Option.map_some, Option.some.injEq] at hstep
  subst hstep
  exact ⟨Session.loaded_sound, .loaded hall fun _ => hfile⟩

theorem step_inv (l : Life) (happening : Happening) (l' : Life) (h : l.Inv)
    (hcareful : l.Careful o happening) (hstep : l.step printf o happening = some l') : l'.Inv := by
  cases happening with
  | event e realloc refRealloc =>
      simp only [step] at hstep
      cases hhandle : e.handle o realloc refRealloc printf l.env l.state with
      | error fault =>
          rw [hhandle] at hstep
          cases hstep
      | ok s =>
          rw [hhandle] at hstep
          cases hstep
          have hbefore := h.holds.mono fun ev hev =>
            hev.append (e.sent printf o realloc refRealloc)
          have hsent : ∀ ev ∈ e.sent printf o realloc refRealloc,
              Kept (l.handed ++ e.sent printf o realloc refRealloc) ev := fun ev hev =>
            ⟨e.sent_keyFits hcareful ev hev, fun hall => hall ev (List.mem_append_right _ hev)⟩
          obtain ⟨hsound, hholds⟩ := e.handle_holds id hhandle hsent (kept_empty _) h.sound hbefore
          exact ⟨hsound, hholds⟩
  | amqpCheck =>
      cases hstep
      exact ⟨State.step_sound (o := o) h.sound .amqpCheck,
        h.holds.quietSession (Session.Tried.refl l.state.amqp).check⟩
  | toggleBlackout =>
      cases hstep
      exact ⟨State.step_sound (o := o) h.sound .toggleBlackout,
        h.holds.quietSession (Session.Tried.refl l.state.amqp).toggleBlackout⟩
  | amqpDisconnect =>
      cases hstep
      exact ⟨State.step_sound (o := o) h.sound .amqpDisconnect,
        h.holds.quietSession (Session.Tried.refl l.state.amqp).disconnect⟩
  | restart killed env stack => exact restart_inv h hcareful hstep

/-- What the queue and the file hold at first. -/
structure Starts (f : Fifo) : Prop where
  queued : f.All fun ev => ev.KeyFits ∧ ev.Stored
  stored : f.Stores fun ev => ev.KeyFits ∧ ev.Stored

/-- In every run of careful steps, over restarts too, all keys that reach
`amqp_basic_publish` have 255 bytes at most. -/
theorem run_keysFit (printf : UInt64 → Option CString) (o : Options) (env : Env) {f : Fifo}
    (hstart : Starts f) (happenings : List Happening)
    (hcareful : Each (step printf o) (Careful o) ⟨env, .loaded f, []⟩ happenings) :
    Always (step printf o) KeysFit ⟨env, .loaded f, []⟩ happenings := by
  have hkept : ∀ ev : Event, ev.KeyFits ∧ ev.Stored → Kept [] ev := fun ev h => ⟨h.1, fun _ => h.2⟩
  have hinv : Inv ⟨env, .loaded f, []⟩ :=
    ⟨Session.loaded_sound, .loaded (hstart.queued.mono hkept) fun _ => hstart.stored.mono hkept⟩
  apply (always_of_each step_inv hinv hcareful).mono
  exact fun l h c hc ev hev => (h.holds.tried c hc ev hev).1

/-- A queue that is still to be loaded from a file of one event. -/
def unloaded : Fifo := .created 10 ⟨some (serialize [⟨.lit "a", .lit "b"⟩]), []⟩

theorem unloaded_starts : Starts unloaded := by
  refine ⟨.created 10 _, rfl, fun _ hst => (nomatch hst), fun text htext => ?_⟩
  cases htext
  refine ⟨[⟨.lit "a", .lit "b"⟩], rfl, List.forall_mem_singleton.mpr ⟨?_, ?_, ?_⟩⟩
  · exact show _ ≤ shortstrMax by decide
  · exact ⟨by decide, by decide⟩
  · exact ⟨by decide, by decide⟩

theorem run_keysFit_ping :
    Always (step loadPrintf Options.default) KeysFit ⟨.reliable, .loaded unloaded, []⟩
      [.restart true .reliable ([], []), .event (.other (.hostCheck pingCheck)) (fun _ => true)
        fun _ => true] :=
  run_keysFit loadPrintf Options.default .reliable unloaded_starts
    [.restart true .reliable ([], []), .event (.other (.hostCheck pingCheck)) (fun _ => true)
      fun _ => true]
    fun _ _ => ⟨⟨FileEnv.reliable_allSucceed, FileEnv.reliable_allSucceed, by decide,
      fun _ hev => absurd hev List.not_mem_nil⟩, fun _ _ =>
        ⟨fun _ => Or.inl (show keyLength _ _ ≤ shortstrMax by decide +kernel), trivial⟩⟩

/-- A host whose name has 255 bytes. -/
def longName : CString := ⟨List.replicate 255 104, by decide +kernel⟩

/-- The key of its check has 286. -/
theorem longName_key_published :
    ¬ Always (step loadPrintf Options.default) KeysFit ⟨.reliable, .loaded unloaded, []⟩
      [.event (.other (.hostCheck { pingCheck with hostName := some longName })) (fun _ => true)
        fun _ => true] := by
  intro hfit
  have hlong : ((step loadPrintf Options.default ⟨.reliable, .loaded unloaded, []⟩
      (.event (.other (.hostCheck { pingCheck with hostName := some longName })) (fun _ => true)
        fun _ => true)).elim true fun l => (l.state.amqp.log.filterMap Call.attempted).all fun ev =>
          decide (ev.rk.strlen ≤ shortstrMax)) = false := by
    decide +kernel
  cases hstep : step loadPrintf Options.default ⟨.reliable, .loaded unloaded, []⟩
      (.event (.other (.hostCheck { pingCheck with hostName := some longName })) (fun _ => true)
        fun _ => true) with
  | none =>
      rw [hstep] at hlong
      cases hlong
  | some l =>
      rw [hstep] at hlong
      obtain ⟨ev, hev, hkey⟩ := List.all_eq_false.mp hlong
      obtain ⟨c, hc, hattempt⟩ := List.mem_filterMap.mp hev
      exact hkey (decide_eq_true ((hfit l hstep).1 c hc ev hattempt))

end Life

end Neb2Amqp
