import Neb2Amqp.Amqp.Delivery
import Neb2Amqp.Fifo.Loading

/-!
# The memory of the queued events

Every event that was allocated and not freed is linked into the queue, and once only: nothing is
lost when an event is evicted, published or put back, and `n2a_free_fifo` leaves nothing behind.
-/

namespace Neb2Amqp

open CLib
open BoundedDeque (roomBehind)

/-- The queue holds the nodes `q`, and besides these only `loose` ones are allocated. -/
structure Fifo.Owns (f : Fifo) (q loose : List Addr) : Prop where
  holds : f.Holds q
  live : ∀ a, Live f.heap a → a ∈ q ∨ a ∈ loose

theorem live_of_eventAt {h h' : EventHeap} {a : Addr} (heq : eventAt h' a = eventAt h a) (ha : Live h' a) :
    Live h a := by
  rw [Live, ← heq]
  exact ha

theorem n2aFreeEvent_not_live (f : Fifo) (a : Addr) : ¬ Live (n2aFreeEvent f (some a)).heap a := by
  simp [n2aFreeEvent, Live, eventAt]

namespace Fifo.Owns

variable {f g : Fifo} {q loose : List Addr}

theorem created (maxSize : UInt32) (disk : Disk) : (Fifo.created maxSize disk).Owns [] [] where
  holds := created_holds maxSize disk
  live := by
    intro a ha
    cases ha

theorem sameQueue (h : f.Owns q loose) (hsame : f.SameQueue g) : g.Owns q loose where
  holds := by
    refine ⟨?_, ?_, ?_, ?_, ?_⟩
    · rw [hsame.heap, hsame.first, hsame.last]
      exact h.holds.linked
    · rw [hsame.first]
      exact h.holds.emptied
    · rw [hsame.heap]
      exact h.holds.live
    · rw [hsame.size]
      exact h.holds.size
    · rw [hsame.maxSize]
      exact h.holds.fits
  live := by
    rw [hsame.heap]
    exact h.live

theorem init (h : f.Owns q loose) (m : Malloc EventNode) (rk msg : CString) :
    (n2aEventInit m f rk msg).2.Owns q ((n2aEventInit m f rk msg).1 :: loose) where
  holds := n2aEventInit_holds h.holds m rk msg
  live := by
    intro a ha
    by_cases hnew : a = (n2aEventInit m f rk msg).1
    · exact .inr (List.mem_cons.mpr (.inl hnew))
    · have hcell : (n2aEventInit m f rk msg).2.heap.cell a = f.heap.cell a := Heap.insert_cell_of_ne _ _ hnew
      have hold : Live f.heap a := by
        unfold Live eventAt at ha ⊢
        rwa [hcell] at ha
      exact (h.live a hold).imp_right (List.mem_cons_of_mem _)

theorem shift {a : Addr} (h : f.Owns (a :: q) loose) : (n2aShift f).2.Owns q (a :: loose) where
  holds := n2aShift_holds h.holds
  live := by
    intro b hb
    rcases h.live b (live_of_eventAt (congrFun (n2aShift_eventAt f) b) hb) with hq | hloose
    · rcases List.mem_cons.mp hq with heq | hmem
      · exact .inr (List.mem_cons.mpr (.inl heq))
      · exact .inl hmem
    · exact .inr (List.mem_cons_of_mem a hloose)

theorem free {a : Addr} (h : f.Owns q (a :: loose)) (ha : a ∉ q) : (n2aFreeEvent f (some a)).Owns q loose where
  holds := by
    apply n2aFreeEvent_holds h.holds
    intro b hb hp
    cases hp
    exact ha hb
  live := by
    intro b hb
    have hne : a ≠ b := by
      intro hsame
      rw [← hsame] at hb
      exact n2aFreeEvent_not_live f a hb
    have hold : Live f.heap b := live_of_eventAt (n2aFreeEvent_eventAt fun hp => hne (Option.some.inj hp)) hb
    rcases h.live b hold with hq | hloose
    · exact .inl hq
    · rcases List.mem_cons.mp hloose with heq | hmem
      · exact absurd heq.symm hne
      · exact .inr hmem

theorem makeRoom (h : f.Owns q loose) : (f.makeRoom n2aShift).Owns (roomBehind f.maxSize.toNat q) loose := by
  have hchecked : (n2aCheckSize f).Owns q loose :=
    ⟨h.holds.checkSize, fun a ha => h.live a (by rwa [n2aCheckSize_heap] at ha)⟩
  by_cases hroom : q.length < f.maxSize.toNat
  · rw [makeRoom_of_room h.holds hroom, roomBehind, if_pos hroom]
    exact hchecked
  · have hfull : (n2aCheckSize f).full = true := h.holds.full_iff.mpr hroom
    unfold Fifo.makeRoom
    simp only [hfull, if_true]
    rw [roomBehind, if_neg hroom]
    cases q with
    | nil =>
        rw [n2aShift_of_none (hchecked.holds.emptied rfl)]
        exact hchecked
    | cons a l =>
        rw [n2aShift_fst, hchecked.holds.first_eq]
        exact hchecked.shift.free (List.nodup_cons.mp h.holds.nodup).1

theorem push {a : Addr} (h : f.Owns q (a :: loose)) (hpos : 0 < f.maxSize.toNat) (ha : Loose f.heap a)
    (haq : a ∉ q) : (n2aPush f a).2.Owns (roomBehind f.maxSize.toNat q ++ [a]) loose where
  holds := (n2aPush_holds h.holds hpos ha haq).1
  live := by
    intro b hb
    rcases h.makeRoom.live b (live_of_eventAt (congrFun (linkLast_eventAt _ a) b) hb) with hq | hloose
    · exact .inl (List.mem_append_left _ hq)
    · rcases List.mem_cons.mp hloose with heq | hmem
      · exact .inl (List.mem_append_right _ (List.mem_singleton.mpr heq))
      · exact .inr hmem

theorem enqueue (h : f.Owns q loose) (hpos : 0 < f.maxSize.toNat) (m : Malloc EventNode) (ev : Event) :
    ∃ q', (Neb2Amqp.enqueue m f ev).2.Owns q' loose := by
  have hnew : (n2aEventInit m f ev.rk ev.msg).1 ∉ q :=
    fun hmem => n2aEventInit_fresh (h.holds.live _ hmem) m ev.rk ev.msg rfl
  exact ⟨_, (h.init m ev.rk ev.msg).push hpos (n2aEventInit_loose m f ev.rk ev.msg) hnew⟩

theorem giveBack {a : Addr} (h : f.Owns (a :: q) loose) : (n2aPrepend (n2aShift f).2 a).2.Owns (a :: q) loose where
  holds := (n2aPrepend_shift_holds h.holds).1
  live := by
    intro b hb
    exact h.live b (live_of_eventAt (congrFun (n2aPrepend_shift_holds h.holds).2 b) hb)

end Fifo.Owns

/-! ## The end of the queue -/

/-- The `do` loop of `n2a_free_fifo`, with the rounds it may still make. -/
def freeEvents : Nat → Fifo → Addr → Fifo
  | 0, f, _ => f
  | rounds + 1, f, pEvent =>
      let next := pNext f.heap pEvent
      let f := n2aFreeEvent f (some pEvent)
      match next with
      | some pEvent => freeEvents rounds f pEvent
      | none => f

/-- `n2a_free_fifo`, as far as the events go. There are no more of them than addresses in use. -/
def n2aFreeFifoEvents (e : FileEnv) (f : Fifo) : Fifo :=
  let f := (n2aCsync e f).2
  match f.first with
  | some pEvent => freeEvents f.heap.top f pEvent
  | none => f

theorem freeEvents_live {rounds : Nat} {f : Fifo} {a : Addr} {l : List Addr}
    (hchain : Chain (pNext f.heap) (some a) (a :: l)) (hrounds : (a :: l).length ≤ rounds)
    (hlive : ∀ b, Live f.heap b → b ∈ a :: l) (b : Addr) : ¬ Live (freeEvents rounds f a).heap b := by
  induction rounds generalizing f a l with
  | zero => cases hrounds
  | succ rounds ih =>
      have hnodup := List.nodup_cons.mp hchain.nodup
      have hleft : ∀ c, Live (n2aFreeEvent f (some a)).heap c → c ∈ l := by
        intro c hc
        have hne : a ≠ c := by
          intro hsame
          rw [← hsame] at hc
          exact n2aFreeEvent_not_live f a hc
        have hold : Live f.heap c := live_of_eventAt (n2aFreeEvent_eventAt fun hp => hne (Option.some.inj hp)) hc
        exact (List.mem_cons.mp (hlive c hold)).resolve_left (Ne.symm hne)
      unfold freeEvents
      dsimp only
      cases l with
      | nil =>
          rw [show pNext f.heap a = none from hchain.2]
          intro hb
          cases hleft b hb
      | cons c l =>
          rw [show pNext f.heap a = some c from hchain.2.1]
          apply ih _ _ hleft
          · apply Chain.congr (show Chain (pNext f.heap) (some c) (c :: l) from ⟨rfl, hchain.2.2⟩)
            intro d hd
            exact pNext_erase_of_ne fun hsame => hnodup.1 (hsame ▸ hd)
          · exact Nat.le_of_succ_le_succ hrounds

theorem Fifo.Owns.freed {f : Fifo} {q : List Addr} (h : f.Owns q []) (e : FileEnv) (a : Addr) :
    ¬ Live (n2aFreeFifoEvents e f).heap a := by
  have hsaved := h.sameQueue (n2aCsync_sameQueue e f)
  have hlive : ∀ b, Live (n2aCsync e f).2.heap b → b ∈ q :=
    fun b hb => (hsaved.live b hb).resolve_right List.not_mem_nil
  unfold n2aFreeFifoEvents
  dsimp only
  cases q with
  | nil =>
      rw [hsaved.holds.emptied rfl]
      intro ha
      cases hlive a ha
  | cons b l =>
      have hchain := hsaved.holds.forward
      rw [hsaved.holds.first_eq] at hchain ⊢
      apply freeEvents_live hchain _ hlive
      exact length_le_of_nodup hsaved.holds.nodup fun c hc => (hsaved.holds.live c hc).lt_top

/-! ## Runs -/

/-- The queue of the module keeps its size, and owns all events. -/
structure State.Tidy (o : Options) (s : State) : Prop where
  capacity : s.pFifo.maxSize = o.cacheSize.toUInt32
  owns : ∃ q, s.pFifo.Owns q []

namespace State.Tidy

variable {o : Options} {w : Env} {s : State}

theorem of_fifo (h : s.Tidy o) {t : State} (hsame : t.pFifo = s.pFifo) : t.Tidy o := by
  constructor
  · rw [hsame]
    exact h.capacity
  · rw [hsame]
    exact h.owns

theorem flushLoop (left : Nat) (h : s.Tidy o) : (Neb2Amqp.flushLoop o w left s).Tidy o := by
  induction left generalizing s with
  | zero => exact h
  | succ left ih =>
      obtain ⟨q, hq⟩ := h.owns
      have hshifted := n2aShift_sameFile s.pFifo
      unfold Neb2Amqp.flushLoop
      cases q with
      | nil =>
          rw [n2aShift_of_none (hq.holds.emptied rfl)]
          exact h
      | cons a l =>
          have hshift : n2aShift s.pFifo = (some a, (n2aShift s.pFifo).2) :=
            Prod.ext ((n2aShift_fst s.pFifo).trans hq.holds.first_eq) rfl
          rw [hshift]
          dsimp only
          split
          · refine ⟨?_, a :: l, hq.giveBack⟩
            exact (hshifted.trans (n2aPrepend_sameFile _ a)).maxSize.trans h.capacity
          · apply ih
            refine ⟨?_, l, hq.shift.free (List.nodup_cons.mp hq.holds.nodup).1⟩
            exact (hshifted.trans (n2aFreeEvent_sameFile _ _)).maxSize.trans h.capacity

theorem flushQueue (timestamp : Int32) (h : s.Tidy o) : (Neb2Amqp.flushQueue o w timestamp s).Tidy o := by
  unfold Neb2Amqp.flushQueue
  dsimp only
  split
  · have hstart : State.Tidy o { s with amqp := s.amqp.call (.flushRound timestamp) } := h.of_fifo rfl
    exact of_fifo (hstart.flushLoop (w := w) (flushQuota o).toInt.toNat) rfl
  · exact h

theorem saveQueue (timestamp : Int32) (h : s.Tidy o) : (Neb2Amqp.saveQueue o w timestamp s).Tidy o := by
  have hsame := n2aCsync_sameQueue w.file s.pFifo
  obtain ⟨q, hq⟩ := h.owns
  unfold Neb2Amqp.saveQueue
  dsimp only
  split
  · exact ⟨hsame.maxSize.trans h.capacity, q, hq.sameQueue hsame⟩
  · exact h

theorem fifoCheck (h : s.Tidy o) : (n2aFifoCheck o w s).Tidy o := by
  have hclock : State.Tidy o { s with amqp := (gettimeofday w.broker s.amqp).2 } := h.of_fifo rfl
  exact (hclock.flushQueue _).saveQueue _

theorem pushEvent (h : s.Tidy o) (hpos : 0 < o.cacheSize.toUInt32.toNat) (ev : Event) :
    (Neb2Amqp.pushEvent w ev s).2.Tidy o := by
  obtain ⟨q, hq⟩ := h.owns
  refine ⟨(enqueue_sameFile w.malloc s.pFifo ev).maxSize.trans h.capacity, ?_⟩
  exact hq.enqueue (by rw [h.capacity]; exact hpos) w.malloc ev

theorem sendEvent (h : s.Tidy o) (hpos : 0 < o.cacheSize.toUInt32.toNat) (ev : Event) :
    (n2aSendEvent o w ev s).2.Tidy o := by
  have hchecked : State.Tidy o { s with amqp := (n2aAmqpCheck o w.broker s.amqp).2 } := h.of_fifo rfl
  have hready := hchecked.fifoCheck (w := w)
  unfold n2aSendEvent
  dsimp only
  generalize n2aFifoCheck o w { s with amqp := (n2aAmqpCheck o w.broker s.amqp).2 } = t at hready
  have hpublished : State.Tidy o { t with amqp := (n2aAmqpPublish o w.broker ev t.amqp).2 } := hready.of_fifo rfl
  split
  · split
    · exact hpublished.pushEvent hpos ev
    · exact hpublished
  · exact hready.pushEvent hpos ev

theorem step (h : s.Tidy o) (hpos : 0 < o.cacheSize.toUInt32.toNat) (op : Op) : (s.step o w op).Tidy o := by
  cases op with
  | sendEvent ev => exact h.sendEvent hpos ev
  | amqpCheck => exact h.of_fifo rfl
  | toggleBlackout => exact h.of_fifo rfl
  | amqpDisconnect => exact h.of_fifo rfl

theorem run (h : s.Tidy o) (hpos : 0 < o.cacheSize.toUInt32.toNat) (ops : List Op) : (s.run o w ops).Tidy o := by
  induction ops generalizing s with
  | nil => exact h
  | cons op ops ih => exact ih (h.step hpos op)

end State.Tidy

/-! ## Loading -/

section

variable {e : FileEnv} {m : Malloc EventNode}

theorem loadLoop_owns {fuel : Nat} {s s' : LoadState} (h : loadLoop e m fuel s = some s') {q : List Addr}
    (hq : s.fifo.Owns q []) (hpos : 0 < s.fifo.maxSize.toNat) :
    (∃ q', s'.fifo.Owns q' []) ∧ s'.fifo.maxSize = s.fifo.maxSize := by
  induction fuel generalizing s q with
  | zero => cases h
  | succ fuel ih =>
      unfold loadLoop at h
      split at h
      · cases h
        exact ⟨⟨q, hq⟩, rfl⟩
      · rename_i st hst
        split at h
        · cases h
          exact ⟨⟨q, hq⟩, rfl⟩
        · obtain ⟨st', d, ev, _, hfifo⟩ := loadStep_enqueues e m st s
          have hread : Fifo.Owns { s.fifo with pFile := some st', disk := d } q [] :=
            hq.sameQueue ⟨rfl, rfl, rfl, rfl, rfl⟩
          obtain ⟨q', hnext⟩ := hread.enqueue hpos m ev
          have hmax : (loadStep e m st s).fifo.maxSize = s.fifo.maxSize := by
            rw [hfifo]
            exact (enqueue_sameFile m _ ev).maxSize
          rw [← hfifo] at hnext
          obtain ⟨howns, hlast⟩ := ih h hnext (by rw [hmax]; exact hpos)
          exact ⟨howns, hlast.trans hmax⟩

theorem n2aFifoInit_owns {stack : Bytes × Bytes} {fuel : Nat} {maxSize : Int32} {disk : Disk} {f : Fifo}
    (hinit : n2aFifoInit e m stack fuel maxSize disk = some f) (hpos : 0 < maxSize.toUInt32.toNat) :
    (∃ q, f.Owns q []) ∧ f.maxSize = maxSize.toUInt32 := by
  obtain ⟨s, hload, heq⟩ := Option.map_eq_some_iff.mp hinit
  rw [← heq]
  unfold n2aLoad at hload
  rw [if_neg (by simp [Fifo.created])] at hload
  have hcreated := Fifo.Owns.created maxSize.toUInt32 disk
  -- the loop starts from the empty queue, with the file opened and locked
  have hrun : ∀ {pFile d s}, (loadLoop e m fuel ⟨{ Fifo.created maxSize.toUInt32 disk with
      pFile := pFile, disk := d, fileLock := true }, stack.1, stack.2, 0, []⟩).map (·.finish e) =
        some s → (∃ q, s.fifo.Owns q []) ∧ s.fifo.maxSize = maxSize.toUInt32 := by
    intro pFile d s hs
    obtain ⟨t, ht, hfinish⟩ := Option.map_eq_some_iff.mp hs
    obtain ⟨⟨q, hq⟩, hmax⟩ := loadLoop_owns ht (hcreated.sameQueue ⟨rfl, rfl, rfl, rfl, rfl⟩) hpos
    rw [← hfinish]
    refine ⟨⟨q, hq.sameQueue ?_⟩, (t.finish_maxSize e).trans hmax⟩
    unfold LoadState.finish
    cases t.fifo.pFile <;> exact ⟨rfl, rfl, rfl, rfl, rfl⟩
  rcases n2aFifoOpenFile_cases e (f := Fifo.created maxSize.toUInt32 disk) rfl with
    ⟨_, _, _, hopen⟩ | ⟨_, _, hopen⟩ | ⟨_, _, hopen⟩
  · rw [hopen] at hload
    exact hrun hload
  · rw [hopen] at hload
    exact hrun hload
  · rw [hopen] at hload
    cases hload
    exact ⟨⟨[], hcreated.sameQueue ⟨rfl, rfl, rfl, rfl, rfl⟩⟩, rfl⟩

end

end Neb2Amqp
