import Neb2Amqp.Amqp.Autosync
import Neb2Amqp.Amqp.Flush
import Neb2Amqp.Fifo.Loading

/-!
# Giving an event back

A flush round that cannot publish the event it has shifted prepends it again. The
queue has just become shorter by one, so that there is room, unless the queue may
hold nothing at all: then the event itself is evicted to make room for it.
-/

namespace Neb2Amqp

open CLib

/-- The states in which the rounds of the `for` loop of `n2a_fifo_check` begin. -/
def flushRounds (o : Options) (w : Env) : Nat → State → List State
  | 0, _ => []
  | left + 1, s =>
      s ::
        match n2aShift s.pFifo with
        | (none, _) => []
        | (some pEvent, f) =>
            let (ok, amqp) := n2aAmqpPublish o w.broker (eventOf f pEvent) s.amqp
            if !ok then []
            else flushRounds o w left { s with amqp := amqp, pFifo := n2aFreeEvent f (some pEvent) }

theorem flushRounds_succ_ne_nil (o : Options) (w : Env) (left : Nat) (s : State) :
    flushRounds o w (left + 1) s ≠ [] := by
  rw [flushRounds]
  exact List.cons_ne_nil _ _

/-- The loop ends where the last of its rounds does. -/
theorem flushLoop_eq_last (o : Options) (w : Env) (left : Nat) (s : State) :
    flushLoop o w left s = (flushRounds o w left s).getLast?.elim s (flushLoop o w 1) := by
  induction left generalizing s with
  | zero => rfl
  | succ left ih =>
      rw [flushRounds, flushLoop]
      cases hshift : n2aShift s.pFifo with
      | mk event f =>
          cases event with
          | none => simp [flushLoop, hshift]
          | some pEvent =>
              cases hok : (n2aAmqpPublish o w.broker (eventOf f pEvent) s.amqp).1 with
              | false => simp [flushLoop, hshift, hok]
              | true =>
                  have hround : flushLoop o w 1 s =
                      { s with
                        amqp := (n2aAmqpPublish o w.broker (eventOf f pEvent) s.amqp).2
                        pFifo := n2aFreeEvent f (some pEvent) } := by
                    simp [flushLoop, hshift, hok]
                  simp only [hok, Bool.not_true, Bool.false_eq_true, if_false]
                  rw [← hround, ih]
                  cases left with
                  | zero => rfl
                  | succ left =>
                      obtain ⟨last, hlast⟩ := Option.ne_none_iff_exists'.mp
                        (mt List.getLast?_eq_none_iff.mp
                          (flushRounds_succ_ne_nil o w left (flushLoop o w 1 s)))
                      rw [List.getLast?_cons, hlast]
                      rfl

/-- The state in which `n2a_send_event` calls `n2a_fifo_check`. -/
def State.checked (o : Options) (w : Env) (s : State) : State :=
  { s with amqp := (n2aAmqpCheck o w.broker s.amqp).2 }

/-- The rounds of that check, if it flushes. -/
def State.flushRounds (o : Options) (w : Env) (s : State) : List State :=
  let s := s.checked o w
  let timestamp := (gettimeofday w.broker s.amqp).1.toInt32
  if s.amqp.amqpConnected ∧ s.pFifo.size > 0 ∧
      timestamp - s.amqp.fifoLastFlush ≥ o.flushInterval then
    Neb2Amqp.flushRounds o w (flushQuota o).toInt.toNat (s.flushStart w)
  else []

theorem State.flushStart_ready (w : Env) {s : State} (hsound : s.amqp.Sound)
    (hconnected : s.amqp.amqpConnected = true) :
    (s.flushStart w).amqp.Sound ∧ (s.flushStart w).amqp.amqpConnected = true ∧
      (s.flushStart w).pFifo = s.pFifo :=
  ⟨(hsound.call (c := .gettimeofday _) trivial).call (c := .flushRound _) trivial, hconnected, rfl⟩

theorem State.mem_flushRounds {o : Options} {w : Env} {s : State}
    (hconnected : (s.checked o w).amqp.amqpConnected = true) (hsize : s.pFifo.size > 0)
    (hdue : (s.checkReading o w).toInt32 - (s.checked o w).amqp.fifoLastFlush ≥ o.flushInterval)
    (hquota : 0 < (flushQuota o).toInt.toNat) :
    (s.checked o w).flushStart w ∈ s.flushRounds o w := by
  obtain ⟨left, hleft⟩ := Nat.exists_eq_succ_of_ne_zero (Nat.ne_of_gt hquota)
  unfold State.flushRounds
  simp only [hleft]
  rw [if_pos ⟨hconnected, hsize, hdue⟩, Neb2Amqp.flushRounds]
  exact List.mem_cons_self

/-- `f'` has the event in front again and is otherwise the queue `f`. -/
structure Fifo.Returned (f : Fifo) (pEvent : Addr) (f' : Fifo) : Prop where
  allocated : Live f'.heap pEvent
  first : f'.first = some pEvent
  nodes : f'.nodes = f.nodes
  events : f'.events = f.events
  size : f'.size.toNat = f'.nodes.length

/-- If the round cannot publish the event it shifts, it gives it back. -/
def State.GivesBack (o : Options) (w : Env) (s : State) : Prop :=
  ∀ pEvent f, n2aShift s.pFifo = (some pEvent, f) →
    (n2aAmqpPublish o w.broker (eventOf f pEvent) s.amqp).1 = false →
    s.pFifo.Returned pEvent (n2aPrepend f pEvent).2

theorem State.givesBack_of_carries {o : Options} {w : Env} {s : State} {q : List Event}
    (h : s.pFifo.Carries q) : s.GivesBack o w := by
  intro pEvent f hshift _
  obtain ⟨nodes, hnodes, -⟩ := h
  have hfirst : nodes.head? = some pEvent := by
    rw [← hnodes.first_eq, ← n2aShift_fst, hshift]
  obtain ⟨l, rfl⟩ := List.head?_eq_some_iff.mp hfirst
  obtain ⟨hback, hsame⟩ := n2aPrepend_shift_holds hnodes
  rw [hshift] at hback hsame
  refine ⟨hback.live pEvent List.mem_cons_self, hback.first_eq, ?_, ?_, ?_⟩
  · rw [hback.nodes_eq, hnodes.nodes_eq]
  · rw [Fifo.events, Fifo.events, hback.nodes_eq, hnodes.nodes_eq, hsame]
  · rw [hback.nodes_eq, hback.size]

theorem flushRounds_carries {o : Options} {w : Env} (left : Nat) {s : State} {q : List Event}
    (h : s.pFifo.Carries q) : ∀ r ∈ flushRounds o w left s, ∃ q', r.pFifo.Carries q' := by
  induction left generalizing s q with
  | zero => simp [flushRounds]
  | succ left ih =>
      rw [flushRounds, List.forall_mem_cons]
      refine ⟨⟨q, h⟩, ?_⟩
      cases q with
      | nil =>
          rw [n2aShift_of_carries_nil h]
          simp
      | cons ev q =>
          obtain ⟨a, hfst, -, hfreed, -⟩ := n2aShift_carries h
          rw [show n2aShift s.pFifo = (some a, (n2aShift s.pFifo).2) from Prod.ext hfst rfl]
          simp only []
          split
          · simp
          · exact ih (s := { s with amqp := _, pFifo := _ }) hfreed

/-- Under these options, in every run from module load, each flush round that cannot publish gives
the event back. -/
def GivesBackAlways (o : Options) : Prop :=
  ∀ (w : Env) (stack : Bytes × Bytes) (fuel : Nat) (disk : Disk) (f : Fifo),
    n2aFifoInit w.file w.malloc stack fuel o.cacheSize disk = some f →
    ∀ evs : List Event, ∀ r ∈ ((State.loaded f).run o w (evs.map .sendEvent)).flushRounds o w,
      r.GivesBack o w

theorem givesBackAlways_of_zero {o : Options} (hzero : o.cacheSize = 0) (hflush : o.flush = -1) :
    GivesBackAlways o := by
  have hquota : (flushQuota o).toInt.toNat = 0 := by
    rw [flushQuota, if_pos hflush, hzero]
    decide
  intro w stack fuel disk f _ evs r hr
  unfold State.flushRounds at hr
  rw [hquota] at hr
  simp [flushRounds] at hr

theorem givesBackAlways_of_ne_zero {o : Options} (hcache : o.cacheSize ≠ 0) :
    GivesBackAlways o := by
  have hpos : 0 < o.cacheSize.toUInt32.toNat := by
    apply Nat.pos_of_ne_zero
    intro hnat
    exact hcache (congrArg Int32.ofUInt32 (UInt32.toNat_inj.mp hnat))
  intro w stack fuel disk f hinit evs
  obtain ⟨⟨q, hq⟩, hmax⟩ := n2aFifoInit_carries hpos hinit
  obtain ⟨b, hb, -⟩ := (State.loaded_tracks hq hmax).run (w := w) hpos (evs.map .sendEvent)
  have hcarries := hb.carries
  generalize (State.loaded f).run o w (evs.map .sendEvent) = s at hcarries
  intro r hr
  unfold State.flushRounds at hr
  simp only [] at hr
  split at hr
  · obtain ⟨q', hq'⟩ := flushRounds_carries (q := b.queue) _ (by exact hcarries) r hr
    exact State.givesBack_of_carries hq'
  · cases hr

/-! ## A queue of no capacity -/

/-- Connecting works, publishing does not, and the clock shows the last second of `int`. -/
def Env.unpublishing : Env :=
  { Env.reliable with
    broker := { Env.reliable.broker with
      gettimeofday := fun _ => 2147483647
      basicPublish := fun _ => -1 } }

/-- The queue that loading an absent file leaves, when it may hold nothing. -/
def Fifo.overfull : Fifo :=
  (n2aFifoInit .reliable Heap.bump ([], []) 3 0 ⟨none, []⟩).get (by decide +kernel)

theorem unpublishing_connects (o : Options) :
    (n2aAmqpCheck o Env.unpublishing.broker .loaded).2.amqpConnected = true ∧
      (n2aAmqpCheck o Env.unpublishing.broker .loaded).2.fifoLastFlush = 0 := by
  have hclean : (Session.opened o Env.unpublishing.broker
      (Session.renewed Env.unpublishing.broker (gettimeofday Env.unpublishing.broker
        .loaded).2)).amqpErrors = false := by
    cases h : o.exchangeType <;>
      simp [Session.opened, Session.renewed, Session.closeOld, Session.loaded, h, n2aOnError,
        n2aOnAmqpError, Session.unlessErrors, Session.call, amqpSocketOpenNoblock, amqpLogin,
        amqpGetRpcReply, amqpChannelOpen, amqpExchangeDeclare, amqpNewConnection, gettimeofday,
        Env.unpublishing, Env.reliable]
  have hcheck : n2aAmqpCheck o Env.unpublishing.broker .loaded =
      n2aAmqpConnect o Env.unpublishing.broker (gettimeofday Env.unpublishing.broker .loaded).2 := by
    rfl
  rw [hcheck]
  simp [n2aAmqpConnect, Session.concluded, hclean]

/-- Its only event is freed by the `n2a_prepend` that is to give it back. -/
theorem overfull_lost {o : Options} {s : State} (hsound : s.amqp.Sound)
    (hconnected : s.amqp.amqpConnected = true) (hfifo : s.pFifo = .overfull) :
    ¬ s.GivesBack o .unpublishing := by
  intro hback
  rw [State.GivesBack, hfifo] at hback
  have hfst : (n2aShift Fifo.overfull).1 = some 0 := by decide +kernel
  have hshift : n2aShift Fifo.overfull = (some 0, (n2aShift Fifo.overfull).2) := Prod.ext hfst rfl
  have hpublish := (n2aAmqpPublish_of_connected (o := o) (b := Env.unpublishing.broker)
    (eventOf (n2aShift Fifo.overfull).2 0) hsound hconnected).2.1
  have hlive := (hback 0 _ hshift hpublish).allocated
  have hfreed : eventAt (n2aPrepend (n2aShift Fifo.overfull).2 0).2.heap 0 = none := by
    decide +kernel
  rw [Live, hfreed] at hlive
  cases hlive

theorem overfull_not_givesBack {o : Options} (hflush : 0 < o.flush) :
    ∃ r ∈ ((State.loaded .overfull).run o .unpublishing []).flushRounds o .unpublishing,
      ¬ r.GivesBack o .unpublishing := by
  obtain ⟨hconnected, hlast⟩ := unpublishing_connects o
  have hsound := (n2aAmqpCheck_spec (o := o) (b := Env.unpublishing.broker)
    Session.loaded_sound).2.1
  have hdue : (2147483647 : Int32) -
      (n2aAmqpCheck o Env.unpublishing.broker .loaded).2.fifoLastFlush ≥ o.flushInterval := by
    have hlt := o.flushInterval.toInt_lt
    have hmax : (2147483647 : Int32).toInt = 2147483647 := by decide
    rw [hlast, ge_iff_le, Int32.sub_zero, Int32.le_iff_toInt_le]
    omega
  have hround : 0 < (flushQuota o).toInt.toNat := by
    have hpos := pos_iff_toInt_pos.mp hflush
    rw [flushQuota, if_neg (ne_of_toInt_pos hpos).2]
    omega
  have hsize : Fifo.overfull.size > 0 := by decide +kernel
  have hfirst := State.mem_flushRounds (o := o) (w := .unpublishing) (s := .loaded .overfull)
    hconnected hsize hdue hround
  obtain ⟨hready, hup, hfifo⟩ := State.flushStart_ready .unpublishing
    (s := State.checked o .unpublishing (.loaded .overfull)) hsound hconnected
  exact ⟨_, hfirst, overfull_lost hready hup hfifo⟩

/-- A configuration the options can describe gives back every event it cannot publish
exactly if the queue may hold an event at all, or is never flushed. -/
theorem givesBackAlways_iff (o : Options) (hflush : o.flush = -1 ∨ 0 < o.flush) :
    GivesBackAlways o ↔ o.cacheSize ≠ 0 ∨ o.flush = -1 := by
  constructor
  · intro hall
    by_contra hnot
    rw [not_or, not_not] at hnot
    obtain ⟨hzero, hset⟩ := hnot
    have hinit : n2aFifoInit Env.unpublishing.file Env.unpublishing.malloc ([], []) 3 o.cacheSize
        ⟨none, []⟩ = some .overfull := by
      rw [hzero]
      exact (Option.some_get _).symm
    obtain ⟨r, hr, hlost⟩ := overfull_not_givesBack (hflush.resolve_left hset)
    exact hlost (hall _ _ _ _ _ hinit [] r hr)
  · rintro (hcache | hset)
    · exact givesBackAlways_of_ne_zero hcache
    · by_cases hzero : o.cacheSize = 0
      · exact givesBackAlways_of_zero hzero hset
      · exact givesBackAlways_of_ne_zero hzero

/-- The default options, on a broker that takes no event. -/
theorem givesBackAlways_iff_default : GivesBackAlways Options.default :=
  (givesBackAlways_iff Options.default (.inl rfl)).mpr (.inl (by decide))

/-- With `cache_size=0` and `flush=1` the round frees the event it could not publish. -/
theorem overfull_event_freed :
    ∃ r ∈ ((State.loaded .overfull).run { Options.default with cacheSize := 0, flush := 1 }
        .unpublishing []).flushRounds { Options.default with cacheSize := 0, flush := 1 }
        .unpublishing,
      ¬ r.GivesBack { Options.default with cacheSize := 0, flush := 1 } .unpublishing :=
  overfull_not_givesBack (by decide)

end Neb2Amqp
