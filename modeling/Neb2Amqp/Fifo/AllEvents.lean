import Neb2Amqp.Fifo.LongLines

/-!
# A property of all events

What holds of every event that is queued holds of all events in memory, in the file
and in a queue loaded from it, whatever state the end pointers are in.
-/

namespace Neb2Amqp

open CLib

/-! ## In memory -/

/-- Every event that was allocated and not yet freed. -/
def Fifo.All (P : Event → Prop) (f : Fifo) : Prop := ∀ a ev, eventAt f.heap a = some ev → P ev

namespace Fifo.All

variable {P : Event → Prop} {f g : Fifo}

theorem of_eventAt (h : f.All P) (hsame : eventAt g.heap = eventAt f.heap) : g.All P := by
  intro a ev hev
  rw [hsame] at hev
  exact h a ev hev

theorem mono {Q : Event → Prop} (h : f.All P) (hpq : ∀ ev, P ev → Q ev) : f.All Q :=
  fun a ev hev => hpq ev (h a ev hev)

theorem created (maxSize : UInt32) (disk : Disk) : (Fifo.created maxSize disk).All P :=
  fun _ _ hev => (nomatch hev)

theorem freeEvent (h : f.All P) (p : Option Addr) : (n2aFreeEvent f p).All P := by
  cases p with
  | none => exact h
  | some a =>
      intro b ev hev
      by_cases hne : b = a
      · rw [hne] at hev
        simp [n2aFreeEvent, eventAt] at hev
      · rw [n2aFreeEvent_eventAt fun heq => hne (Option.some.inj heq).symm] at hev
        exact h b ev hev

theorem shift (h : f.All P) : (n2aShift f).2.All P := h.of_eventAt (n2aShift_eventAt f)

theorem makeRoom (h : f.All P) {take : Fifo → Option Addr × Fifo}
    (htake : ∀ g : Fifo, eventAt (take g).2.heap = eventAt g.heap) : (f.makeRoom take).All P := by
  have hchecked : (n2aCheckSize f).All P := h.of_eventAt (by rw [n2aCheckSize_heap])
  unfold Fifo.makeRoom
  simp only []
  split
  · exact freeEvent (hchecked.of_eventAt (htake _)) _
  · exact hchecked

theorem prepend (h : f.All P) (a : Addr) : (n2aPrepend f a).2.All P :=
  (h.makeRoom n2aPop_eventAt).of_eventAt (Fifo.linkFirst_eventAt _ a)

theorem enqueue (h : f.All P) (m : Malloc EventNode) {ev : Event} (hev : P ev) :
    (Neb2Amqp.enqueue m f ev).2.All P := by
  have hnew : (n2aEventInit m f ev.rk ev.msg).2.All P := by
    intro b ev' hev'
    by_cases hself : b = (n2aEventInit m f ev.rk ev.msg).1
    · rw [hself, n2aEventInit_eventAt_self] at hev'
      cases hev'
      exact hev
    · have hold : eventAt (n2aEventInit m f ev.rk ev.msg).2.heap b = eventAt f.heap b := by
        simp only [eventAt, n2aEventInit, n2aEventInitNomalloc] at hself ⊢
        rw [Heap.insert_cell_of_ne _ _ hself]
      exact h b ev' (hold ▸ hev')
  exact (hnew.makeRoom n2aShift_eventAt).of_eventAt (Fifo.linkLast_eventAt _ _)

theorem events (h : f.All P) : ∀ ev ∈ f.events, P ev := by
  intro ev hev
  obtain ⟨a, -, hat⟩ := List.mem_filterMap.mp hev
  exact h a ev hat

/-- Freed memory is read as two empty texts. -/
theorem eventOf (h : f.All P) (hempty : P ⟨.ofBytes [], .ofBytes []⟩) (a : Addr) :
    P ((eventAt f.heap a).getD ⟨.ofBytes [], .ofBytes []⟩) := by
  cases hev : eventAt f.heap a with
  | none => exact hempty
  | some ev => exact h a ev hev

end Fifo.All

/-! ## In the file -/

/-- The file, if there is one, holds such events, and nothing is waiting to be written. -/
structure Fifo.Stores (P : Event → Prop) (f : Fifo) : Prop where
  unlocked : f.fileLock = false
  settled : f.Settled
  content : ∀ text, f.disk.content = some text → ∃ q, text = serialize q ∧ ∀ ev ∈ q, P ev

namespace Fifo.Stores

variable {P : Event → Prop} {f g : Fifo} {e : FileEnv}

theorem of_sameFile (h : f.Stores P) (hsame : f.SameFile g) : g.Stores P := by
  refine ⟨hsame.fileLock.trans h.unlocked, fun st hst => ?_, fun text htext => ?_⟩
  · exact h.settled st (hsame.pFile ▸ hst)
  · exact h.content text (hsame.disk ▸ htext)

theorem mono {Q : Event → Prop} (h : f.Stores P) (hpq : ∀ ev, P ev → Q ev) : f.Stores Q := by
  refine ⟨h.unlocked, h.settled, fun text htext => ?_⟩
  obtain ⟨q, hq, hp⟩ := h.content text htext
  exact ⟨q, hq, fun ev hev => hpq ev (hp ev hev)⟩

theorem csync (h : f.Stores P) (he : e.AllSucceed) (hall : f.All P) :
    (n2aCsync e f).2.Stores P := by
  cases hdirty : f.dirty with
  | false =>
      have hsame : (n2aCsync e f).2 = f := by simp [n2aCsync, hdirty]
      rw [hsame]
      exact h
  | true =>
      have hgone : ¬ f.Reuses e := fun hre => absurd (hre.2.1.symm.trans (he.unlink _)) (by simp)
      have hbase : f.base e = [] := by rw [Fifo.base, if_neg hgone]
      obtain ⟨-, -, hlock, hsettled, hcontent⟩ := n2aCsync_of_writes hdirty h.unlocked
        (Or.inr (he.fopen _)) (by rw [hbase]; exact Nat.zero_le _) (fun i _ => he.fprintf _)
        (he.fflush _)
      refine ⟨hlock, hsettled, fun text htext => ?_⟩
      rw [hcontent] at htext
      cases htext
      exact ⟨f.events, rfl, hall.events⟩

theorem freeFifo (h : f.Stores P) (he : e.AllSucceed) (hall : f.All P) :
    ∀ text, (n2aFreeFifo e f).content = some text → ∃ q, text = serialize q ∧ ∀ ev ∈ q, P ev := by
  have hsaved := h.csync he hall
  intro text htext
  unfold n2aFreeFifo at htext
  cases hp : (n2aCsync e f).2.pFile with
  | none =>
      simp only [hp] at htext
      exact hsaved.content text htext
  | some st =>
      have hpending := hsaved.settled st hp
      have hwritten : ∀ n content, st.written n content = content := by
        intro n content
        cases content <;> simp [Stream.written, hpending]
      simp only [hp, fclose, hwritten, Disk.record_content] at htext
      exact hsaved.content text htext

end Fifo.Stores

/-! ## Loading -/

/-- The property is not lost with the last byte of both texts. -/
def KeepsCut (P : Event → Prop) : Prop :=
  ∀ ev ev' : Event, P ev → ev'.rk.bytes = ev.rk.bytes.dropLast →
    ev'.msg.bytes = ev.msg.bytes.dropLast → P ev'

section
variable {P : Event → Prop} {e : FileEnv} (he : e.AllSucceed) {m : Malloc EventNode}
include he

theorem loadStep_record {s : LoadState} {ev : Event} {rest : Bytes} {st : Stream}
    (h : s.Before (ev.record ++ rest) st) (hev : ev.Unbroken) (hfits : ev.Fits) :
    (∃ st' d, (loadStep e m st s).fifo =
        (enqueue m { s.fifo with pFile := some st', disk := d } ev).2 ∧
      d.content = s.fifo.disk.content ∧ st'.pending = st.pending ∧
      (loadStep e m st s).Before rest st') ∧
    CString.ofBytes (loadStep e m st s).rk = ev.rk ∧
    CString.ofBytes (loadStep e m st s).msg = ev.msg := by
  obtain ⟨hrk, hmsg, hrest⟩ := fgets_record he s.rk s.msg h.position hev hfits
  obtain ⟨hstream, hdisk⟩ := loadStep_file (m := m) hrk hmsg
  refine ⟨⟨_, (s.fifo.disk.record s.fifo.disk.content).record s.fifo.disk.content, ?_, ?_, ?_,
    hstream, h.more, ?_⟩, ?_, ?_⟩
  · simp only [loadStep, hrk, hmsg, ofBytes_stripLast_line]
    rfl
  · rfl
  · rfl
  · rw [hdisk]
    exact hrest
  · simp only [loadStep, hrk, hmsg, ofBytes_stripLast_line]
  · simp only [loadStep, hrk, hmsg, ofBytes_stripLast_line]

/-- The last round finds the end of the file, and queues what the arrays still hold. -/
theorem loadLoop_end {s s' : LoadState} {st : Stream} {fuel : Nat} (h : s.Before [] st)
    (hrun : loadLoop e m fuel s = some s') :
    ∃ st' d, s'.fifo = (enqueue m { s.fifo with pFile := some st', disk := d }
        ⟨.ofBytes (stripLast s.rk), .ofBytes (stripLast s.msg)⟩).2 ∧
      d.content = s.fifo.disk.content ∧ st'.pending = st.pending := by
  have hsize : 1 < eventMsgMaxSize := by decide
  have hrk := fgets_end s.rk (he.fgets _) h.position hsize
  have hmsg := @fgets_end e eventMsgMaxSize s.msg { st with eof := true }
    (s.fifo.disk.record s.fifo.disk.content) (he.fgets _) h.position hsize
  obtain ⟨hstream, -⟩ := loadStep_file (m := m) hrk hmsg
  cases fuel with
  | zero => cases hrun
  | succ fuel =>
      rw [loadLoop_step h.stream h.more] at hrun
      cases fuel with
      | zero => cases hrun
      | succ fuel =>
          have hdone : loadLoop e m (fuel + 1) (loadStep e m st s) = some (loadStep e m st s) := by
            simp [loadLoop, hstream]
          rw [hdone] at hrun
          cases hrun
          refine ⟨{ st with eof := true },
            (s.fifo.disk.record s.fifo.disk.content).record s.fifo.disk.content, ?_, rfl, rfl⟩
          simp only [loadStep, hrk, hmsg]
          rfl

theorem loadLoop_all (hcut : KeepsCut P) (q : List Event) {fuel : Nat} {s s' : LoadState}
    {st : Stream} (h : s.Before (serialize q) st)
    (hq : ∀ ev ∈ q, ev.Unbroken ∧ ev.Fits ∧ P ev)
    (hlast : q = [] → P ⟨.ofBytes (stripLast s.rk), .ofBytes (stripLast s.msg)⟩)
    (hall : s.fifo.All P) (hrun : loadLoop e m fuel s = some s') :
    s'.fifo.All P ∧ s'.fifo.disk.content = s.fifo.disk.content ∧
      ∀ st', s'.fifo.pFile = some st' → st'.pending = st.pending := by
  induction q generalizing fuel s st with
  | nil =>
      obtain ⟨st', d, hfifo, hcontent, hpending⟩ := loadLoop_end he h hrun
      have hsame := enqueue_sameFile m { s.fifo with pFile := some st', disk := d }
        ⟨.ofBytes (stripLast s.rk), .ofBytes (stripLast s.msg)⟩
      rw [hfifo]
      refine ⟨?_, ?_, fun st'' hst => ?_⟩
      · exact Fifo.All.enqueue (f := { s.fifo with pFile := some st', disk := d }) hall m (hlast rfl)
      · rw [hsame.disk]
        exact hcontent
      · rw [hsame.pFile] at hst
        cases hst
        exact hpending
  | cons ev q ih =>
      obtain ⟨⟨hunbroken, hfits, hev⟩, hrest⟩ := List.forall_mem_cons.mp hq
      have hfront : s.Before (ev.record ++ serialize q) st := h
      obtain ⟨⟨st', d, hfifo, hcontent, hpending, hnext⟩, hrk, hmsg⟩ :=
        loadStep_record he (m := m) hfront hunbroken hfits
      have hsame := enqueue_sameFile m { s.fifo with pFile := some st', disk := d } ev
      have hextra : P ⟨.ofBytes (stripLast (loadStep e m st s).rk),
          .ofBytes (stripLast (loadStep e m st s).msg)⟩ := by
        apply hcut ev _ hev
        · rw [ofBytes_stripLast, hrk]
        · rw [ofBytes_stripLast, hmsg]
      have hnow : (loadStep e m st s).fifo.All P := by
        rw [hfifo]
        exact Fifo.All.enqueue (f := { s.fifo with pFile := some st', disk := d }) hall m hev
      have hcontent' : (loadStep e m st s).fifo.disk.content = s.fifo.disk.content := by
        rw [hfifo, hsame.disk]
        exact hcontent
      cases fuel with
      | zero => cases hrun
      | succ fuel =>
          rw [loadLoop_step h.stream h.more] at hrun
          have hlater := ih hnext hrest (fun _ => hextra) hnow hrun
          rw [hcontent', hpending] at hlater
          exact hlater

theorem n2aFifoInit_all (hcut : KeepsCut P) (stack : Bytes × Bytes) (maxSize : Int32)
    {disk : Disk} {q : List Event} (hdisk : disk.content = some (serialize q)) (hne : q ≠ [])
    (hq : ∀ ev ∈ q, ev.Unbroken ∧ ev.Fits ∧ P ev) :
    ∃ f, (∀ fuel ≥ (serialize q).length + 2,
        n2aFifoInit e m stack fuel maxSize disk = some f) ∧ f.All P ∧ f.Stores P := by
  have hfront : (LoadState.start maxSize.toUInt32 stack disk).Before (serialize q) Stream.start :=
    ⟨rfl, rfl, congrArg (fun content : Option Bytes => content.getD []) hdisk⟩
  have hleft : (Stream.start.unread (LoadState.start maxSize.toUInt32 stack disk).fifo.disk).length ≤
      (serialize q).length := le_of_eq (congrArg List.length hfront.position)
  obtain ⟨s', hloop⟩ := loadLoop_ends (m := m) he _ hfront.stream hleft
  have hcreated : (LoadState.start maxSize.toUInt32 stack disk).fifo.All P :=
    (Fifo.All.created maxSize.toUInt32 disk).of_eventAt rfl
  obtain ⟨hall, hcontent, hpending⟩ := loadLoop_all he hcut q hfront hq
    (fun hnil => absurd hnil hne) hcreated (hloop _ (Nat.le_refl _))
  have hinit : ∀ fuel ≥ (serialize q).length + 2,
      n2aFifoInit e m stack fuel maxSize disk = some (s'.finish e).fifo := by
    intro fuel hfuel
    rw [n2aFifoInit, n2aLoad_of_content he stack fuel _ hdisk, hloop fuel hfuel]
    rfl
  obtain ⟨hclosed, hlock⟩ := n2aFifoInit_closed (hinit _ (Nat.le_refl _))
  refine ⟨(s'.finish e).fifo, hinit, ?_, hlock, fun st hst => ?_, fun text htext => ?_⟩
  · unfold LoadState.finish
    cases hp : s'.fifo.pFile <;> exact hall.of_eventAt rfl
  · exact absurd (hclosed.symm.trans hst) (by simp)
  · have hsame : (s'.finish e).fifo.disk.content = some (serialize q) := by
      rw [show (LoadState.start maxSize.toUInt32 stack disk).fifo.disk.content = disk.content from rfl,
        hdisk] at hcontent
      unfold LoadState.finish
      cases hp : s'.fifo.pFile with
      | none => exact hcontent
      | some st =>
          have hempty : st.pending = [] := hpending st hp
          simp [fclose, Stream.written, hempty, hcontent]
    rw [hsame] at htext
    cases htext
    exact ⟨q, rfl, fun ev hev => (hq ev hev).2.2⟩

end

end Neb2Amqp
