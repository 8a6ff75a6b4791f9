import Neb2Amqp.Fifo.CacheFile

/-!
# Saving the queue

What `n2a_csync` leaves in the cache file and what the file shows in between.
-/

namespace Neb2Amqp

open CLib

/-- The queue in memory is untouched; only its file may differ. -/
structure Fifo.SameQueue (f f' : Fifo) : Prop where
  heap : f'.heap = f.heap
  first : f'.first = f.first
  last : f'.last = f.last
  size : f'.size = f.size
  maxSize : f'.maxSize = f.maxSize

theorem Fifo.SameQueue.refl (f : Fifo) : f.SameQueue f := ⟨rfl, rfl, rfl, rfl, rfl⟩

theorem Fifo.SameQueue.trans {f g h : Fifo} (hfg : f.SameQueue g) (hgh : g.SameQueue h) :
    f.SameQueue h :=
  ⟨hgh.heap.trans hfg.heap, hgh.first.trans hfg.first, hgh.last.trans hfg.last,
    hgh.size.trans hfg.size, hgh.maxSize.trans hfg.maxSize⟩

theorem Fifo.SameQueue.events {f g : Fifo} (h : f.SameQueue g) : g.events = f.events := by
  rw [Fifo.events, Fifo.nodes, h.heap, h.first, ← Fifo.nodes, ← Fifo.events]

theorem Fifo.SameQueue.carries {f g : Fifo} {q : List Event} (h : f.SameQueue g) (hq : f.Carries q) :
    g.Carries q :=
  hq.of_same h.heap h.first h.last h.size h.maxSize

/-! ## Removing and opening the file -/

/-- The file once the stream of an earlier save is closed. -/
def Fifo.closing (e : FileEnv) (f : Fifo) : Option Bytes :=
  match f.pFile with
  | some st => st.written ((e.fclose f.disk.tick).flushed st.pending) f.disk.content
  | none => f.disk.content

/-- When `n2a_clear` reaches its `unlink`. -/
def Fifo.unlinkTick (f : Fifo) : Nat :=
  match f.pFile with
  | some _ => f.disk.tick + 1
  | none => f.disk.tick

/-- No output of an earlier save waits in a buffer. -/
def Fifo.Settled (f : Fifo) : Prop := ∀ st, f.pFile = some st → st.pending = []

theorem Fifo.Settled.closing {f : Fifo} (h : f.Settled) (e : FileEnv) :
    f.closing e = f.disk.content := by
  unfold Fifo.closing
  cases hp : f.pFile with
  | none => rfl
  | some st => simp [Stream.written, h st hp]

/-- The disk `n2a_clear` leaves. -/
def Fifo.cleared (e : FileEnv) (f : Fifo) : Disk := (n2aClear e f).2.disk

theorem n2aClear_eq (e : FileEnv) (f : Fifo) :
    (n2aClear e f).2 = { f with pFile := none, disk := f.cleared e } := by
  unfold Fifo.cleared n2aClear
  cases hp : f.pFile with
  | none => simp only [← hp]
  | some st => rfl

theorem Fifo.cleared_content (e : FileEnv) (f : Fifo) :
    (f.cleared e).content = if e.unlink f.unlinkTick then none else f.closing e := by
  unfold cleared n2aClear unlinkTick closing
  cases hp : f.pFile with
  | none => exact unlink_content e f.disk
  | some st =>
      apply (unlink_content e (fclose e st f.disk)).trans
      rw [fclose, Disk.record_tick, Disk.record_content]

theorem Fifo.cleared_tick (e : FileEnv) (f : Fifo) : (f.cleared e).tick = f.unlinkTick + 1 := by
  unfold cleared n2aClear unlinkTick
  cases hp : f.pFile with
  | none => exact unlink_tick e f.disk
  | some st =>
      apply (unlink_tick e (fclose e st f.disk)).trans
      rw [fclose, Disk.record_tick]

theorem Fifo.cleared_passes (e : FileEnv) (f : Fifo) :
    f.disk.Passes (fun c => c = f.closing e ∨ c = (f.cleared e).content) (f.cleared e) := by
  unfold cleared n2aClear closing
  cases hp : f.pFile with
  | none => exact (unlink_passes e f.disk).mono (fun c hc => Or.inr hc)
  | some st =>
      have hclose : f.disk.Passes (· = (fclose e st f.disk).content) (fclose e st f.disk) :=
        .record f.disk rfl
      exact (hclose.mono (fun c hc => Or.inl hc)).trans
        ((unlink_passes e (fclose e st f.disk)).mono (fun c hc => Or.inr hc))

/-! ## Writing the events -/

/-- What the `fprintf` calls from number `t` on take over from the events. -/
def accepted (e : FileEnv) : Nat → List Event → Bytes
  | _, [] => []
  | t, ev :: q => (e.fprintf t).taken ev.record ++ accepted e (t + 1) q

theorem accepted_of_ok {e : FileEnv} {t : Nat} {q : List Event}
    (hok : ∀ i < q.length, (e.fprintf (t + i)).ok = true) : accepted e t q = serialize q := by
  induction q generalizing t with
  | nil => rfl
  | cons ev q ih =>
      have hnow : (e.fprintf t).ok = true := hok 0 (Nat.zero_lt_succ _)
      have hlater : accepted e (t + 1) q = serialize q := by
        apply ih
        intro i hi
        rw [Nat.add_right_comm]
        exact hok (i + 1) (Nat.succ_lt_succ hi)
      rw [accepted, hlater, Outcome.taken, if_pos hnow]
      rfl

/-- The loop of `n2a_csync` over the events, and the flush behind it. -/
def Fifo.writeOut (e : FileEnv) (f : Fifo) : Fifo :=
  fflushFile e (f.events.foldl (fprintfEvent e) f)

/-- The file shows a beginning of `text` over what it held before. -/
def Partial (old text : Bytes) (c : Option Bytes) : Prop :=
  ∃ p, p <+: text ∧ c = some (overwrite old 0 p)

theorem partial_of_writing {old text : Bytes} {st : Stream} {c : Option Bytes}
    (h : st.Writing old text c) (more : Bytes) : Partial old (text ++ more) c :=
  ⟨text.take st.pos, (List.take_prefix _ _).trans (List.prefix_append _ _), h.content_eq⟩

/-- A stretch of output calls that brings the stream from `text` to `text'`. -/
structure Writes (old text' : Bytes) (f f' : Fifo) : Prop where
  queue : f.SameQueue f'
  stream : ∃ st, f'.pFile = some st ∧ st.Writing old text' f'.disk.content
  passes : f.disk.Passes (Partial old text') f'.disk

theorem foldl_fprintfEvent_writes (e : FileEnv) (q : List Event) {f : Fifo} {old text : Bytes}
    {st : Stream} (hp : f.pFile = some st) (hw : st.Writing old text f.disk.content) :
    Writes old (text ++ accepted e f.disk.tick q) f (q.foldl (fprintfEvent e) f) ∧
      (q.foldl (fprintfEvent e) f).disk.tick = f.disk.tick + q.length := by
  induction q generalizing f text st with
  | nil =>
      rw [accepted, List.append_nil]
      exact ⟨⟨.refl f, ⟨st, hp, hw⟩, .refl _ _⟩, rfl⟩
  | cons ev q ih =>
      have hnow : fprintfEvent e f ev = { f with
          pFile := some (fprintf e ev.record st f.disk).1
          disk := (fprintf e ev.record st f.disk).2 } := by
        rw [fprintfEvent, hp]
      have hwrite := fprintf_writing (e := e) hw ev.record
      have htick : (fprintf e ev.record st f.disk).2.tick = f.disk.tick + 1 := by
        rw [fprintf, Disk.record_tick]
      obtain ⟨⟨hqueue, hstream, hpasses⟩, hend⟩ :=
        ih (f := fprintfEvent e f ev) (by rw [hnow]) (by rw [hnow]; exact hwrite)
      have htext : text ++ (e.fprintf f.disk.tick).taken ev.record ++
          accepted e (fprintfEvent e f ev).disk.tick q =
          text ++ accepted e f.disk.tick (ev :: q) := by
        rw [hnow, htick, accepted, List.append_assoc]
      rw [htext] at hstream hpasses
      rw [List.foldl_cons]
      refine ⟨⟨Fifo.SameQueue.trans ?_ hqueue, hstream, Disk.Passes.trans ?_ hpasses⟩, ?_⟩
      · rw [hnow]
        exact ⟨rfl, rfl, rfl, rfl, rfl⟩
      · rw [hnow, ← htext, hnow]
        exact .record f.disk (partial_of_writing hwrite _)
      · rw [hend, hnow, htick, List.length_cons]
        omega

theorem writeOut_writes (e : FileEnv) {f : Fifo} {old : Bytes} (hp : f.pFile = some Stream.start)
    (hold : f.disk.content = some old) :
    Writes old (accepted e f.disk.tick f.events) f (f.writeOut e) ∧
      ((e.fflush (f.disk.tick + f.events.length)).ok = true →
        (f.writeOut e).Settled ∧ (f.writeOut e).disk.content =
          some (overwrite old 0 (accepted e f.disk.tick f.events))) := by
  have hstart : Stream.start.Writing old [] f.disk.content := hold ▸ .start old
  obtain ⟨⟨hqueue, ⟨st, hst, hwriting⟩, hpasses⟩, htick⟩ :=
    foldl_fprintfEvent_writes e f.events hp hstart
  rw [List.nil_append] at hwriting hpasses
  have hflush : f.writeOut e = { f.events.foldl (fprintfEvent e) f with
      pFile := some (fflush e st (f.events.foldl (fprintfEvent e) f).disk).1
      disk := (fflush e st (f.events.foldl (fprintfEvent e) f).disk).2 } := by
    rw [Fifo.writeOut, fflushFile, hst]
  have hend := fflush_writing (e := e) hwriting
  refine ⟨⟨hqueue.trans ?_, ⟨_, by rw [hflush], ?_⟩, hpasses.trans ?_⟩, fun hok => ?_⟩
  · rw [hflush]
    exact ⟨rfl, rfl, rfl, rfl, rfl⟩
  · rw [hflush]
    exact hend
  · rw [hflush]
    have hshown := partial_of_writing hend []
    rw [List.append_nil] at hshown
    exact .record _ hshown
  · rw [← htick] at hok
    obtain ⟨hempty, hcontent⟩ := fflush_of_ok hwriting hok
    rw [hflush]
    refine ⟨fun st' hst' => ?_, hcontent⟩
    cases hst'
    exact hempty

/-! ## n2a_csync -/

/-- The file that could not be removed is opened again as it is. -/
def Fifo.Reuses (e : FileEnv) (f : Fifo) : Prop :=
  f.disk.content.isSome ∧ e.unlink f.unlinkTick = false ∧ e.fopen (f.unlinkTick + 1) = true

instance (e : FileEnv) (f : Fifo) : Decidable (f.Reuses e) :=
  inferInstanceAs (Decidable (_ ∧ _ ∧ _))

/-- One of the two `fopen` calls will succeed. -/
def Fifo.Opens (e : FileEnv) (f : Fifo) : Prop := f.Reuses e ∨ e.fopen (f.unlinkTick + 2) = true

instance (e : FileEnv) (f : Fifo) : Decidable (f.Opens e) := inferInstanceAs (Decidable (_ ∨ _))

/-- When the first event is written. -/
def Fifo.writeTick (e : FileEnv) (f : Fifo) : Nat :=
  if f.Reuses e then f.unlinkTick + 2 else f.unlinkTick + 3

/-- What the file holds when the first event is written. -/
def Fifo.base (e : FileEnv) (f : Fifo) : Bytes :=
  if f.Reuses e then (f.closing e).getD [] else []

theorem Fifo.closing_isSome (e : FileEnv) (f : Fifo) :
    (f.closing e).isSome = f.disk.content.isSome := by
  unfold closing Stream.written
  cases f.pFile <;> simp

theorem Fifo.reuses_iff (e : FileEnv) (f : Fifo) :
    f.Reuses e ↔ e.fopen (f.cleared e).tick = true ∧ (f.cleared e).content.isSome := by
  rw [cleared_tick, cleared_content, Reuses, ← f.closing_isSome e]
  cases e.unlink f.unlinkTick <;> simp [and_comm]

theorem Fifo.cleared_lock (e : FileEnv) (f : Fifo) (lock : Bool) :
    cleared e { f with fileLock := lock } = f.cleared e := by
  unfold cleared n2aClear
  cases hp : f.pFile with
  | none => rfl
  | some st => rfl

/-- The lock taken, the old file closed and removed. -/
def Fifo.prepared (e : FileEnv) (f : Fifo) : Fifo :=
  { f with fileLock := true, pFile := none, disk := f.cleared e }

theorem n2aCsync_of_dirty {e : FileEnv} {f g : Fifo} {opened : Int32} (hdirty : f.dirty = true)
    (hlock : f.fileLock = false) (hopen : n2aFifoOpenFile e (f.prepared e) = (opened, g)) :
    n2aCsync e f =
      if opened = 0 then (0, { g with fileLock := false })
      else (Int32.ofNat g.events.length,
        { g.writeOut e with fileLock := false, dirty := false }) := by
  have hclear : (n2aClear e { f with fileLock := true }).2 = f.prepared e := by
    rw [n2aClear_eq, Fifo.cleared_lock]
    rfl
  unfold n2aCsync
  rw [if_neg (by simp [hdirty]), if_neg (by simp [hlock])]
  simp only [hclear, hopen]
  rfl

/-- Everything a real save does; `d` is the disk when the file has been opened. -/
theorem n2aCsync_cases (e : FileEnv) {f : Fifo} (hdirty : f.dirty = true)
    (hlock : f.fileLock = false) :
    (f.Opens e ∧ ∃ d, d.tick = f.writeTick e ∧ d.content = some (f.base e) ∧
      (f.cleared e).Passes (fun c => c = (f.cleared e).content ∨ c = some (f.base e)) d ∧
      n2aCsync e f = (Int32.ofNat f.events.length,
        { Fifo.writeOut e { f.prepared e with pFile := some Stream.start, disk := d } with
          fileLock := false, dirty := false })) ∨
    (¬ f.Opens e ∧ ∃ d, d.content = (f.cleared e).content ∧
      (f.cleared e).Passes (· = (f.cleared e).content) d ∧
      n2aCsync e f = (0, { f.prepared e with fileLock := false, disk := d })) := by
  have hreuses := f.reuses_iff e
  have htick := f.cleared_tick e
  rcases n2aFifoOpenFile_cases e (f := f.prepared e) rfl with
    ⟨old, hold, hr, hopen⟩ | ⟨hr, hw, hopen⟩ | ⟨hr, hw, hopen⟩
  · change (f.cleared e).content = some old at hold
    have hre : f.Reuses e := hreuses.mpr ⟨hr, by simp [hold]⟩
    have hcontent := f.cleared_content e
    rw [hre.2.1, if_neg (by simp), hold] at hcontent
    refine Or.inl ⟨Or.inl hre, (f.cleared e).record (some old), ?_, ?_, ?_, ?_⟩
    · rw [Disk.record_tick, htick, Fifo.writeTick, if_pos hre]
    · rw [Disk.record_content, Fifo.base, if_pos hre, ← hcontent]
      rfl
    · exact .record _ (Or.inl hold.symm)
    · rw [n2aCsync_of_dirty hdirty hlock hopen]
      rfl
  · have hre : ¬ f.Reuses e := fun h => hr (hreuses.mp h)
    change e.fopen ((f.cleared e).tick + 1) = true at hw
    rw [htick] at hw
    refine Or.inl ⟨Or.inr hw, ((f.cleared e).record (f.cleared e).content).record (some []),
      ?_, ?_, ?_, ?_⟩
    · rw [Disk.record_tick, Disk.record_tick, htick, Fifo.writeTick, if_neg hre]
    · rw [Disk.record_content, Fifo.base, if_neg hre]
    · refine (Disk.Passes.record _ (Or.inl rfl)).trans (.record _ (Or.inr ?_))
      rw [Fifo.base, if_neg hre]
    · rw [n2aCsync_of_dirty hdirty hlock hopen]
      rfl
  · have hre : ¬ f.Reuses e := fun h => hr (hreuses.mp h)
    change e.fopen ((f.cleared e).tick + 1) = false at hw
    rw [htick] at hw
    refine Or.inr ⟨fun h => h.elim hre (by simp [hw]),
      ((f.cleared e).record (f.cleared e).content).record (f.cleared e).content, rfl, ?_, ?_⟩
    · exact (Disk.Passes.record (P := (· = (f.cleared e).content)) _ rfl).trans (.record _ rfl)
    · rw [n2aCsync_of_dirty hdirty hlock hopen]
      rfl

/-- The calls of the next save all do their work: nothing longer is left under
the events, and every write and the flush succeed. -/
def Fifo.SavesWell (e : FileEnv) (f : Fifo) : Prop :=
  f.dirty = true → f.Opens e →
    (f.Reuses e → (f.disk.content.getD []).length ≤ (serialize f.events).length) ∧
    (∀ i < f.events.length, (e.fprintf (f.writeTick e + i)).ok = true) ∧
    (e.fflush (f.writeTick e + f.events.length)).ok = true

instance (e : FileEnv) (f : Fifo) : Decidable (f.SavesWell e) :=
  inferInstanceAs (Decidable (_ → _ → _ ∧ _ ∧ _))

theorem Fifo.Settled.base_length_le {e : FileEnv} {f : Fifo} {text : Bytes} (h : f.Settled)
    (hfits : f.Reuses e → (f.disk.content.getD []).length ≤ text.length) :
    (f.base e).length ≤ text.length := by
  unfold base
  split
  · rename_i hre
    rw [h.closing e]
    exact hfits hre
  · exact Nat.zero_le _

theorem n2aCsync_of_writes {e : FileEnv} {f : Fifo} (hdirty : f.dirty = true)
    (hlock : f.fileLock = false) (hopens : f.Opens e)
    (hbase : (f.base e).length ≤ (serialize f.events).length)
    (hwrites : ∀ i < f.events.length, (e.fprintf (f.writeTick e + i)).ok = true)
    (hflush : (e.fflush (f.writeTick e + f.events.length)).ok = true) :
    f.SameQueue (n2aCsync e f).2 ∧ (n2aCsync e f).2.dirty = false ∧
      (n2aCsync e f).2.fileLock = false ∧ (n2aCsync e f).2.Settled ∧
      (n2aCsync e f).2.disk.content = some (serialize f.events) := by
  rcases n2aCsync_cases e hdirty hlock with ⟨-, d, htick, hcontent, -, hsync⟩ | ⟨hno, -⟩
  · obtain ⟨hall, hend⟩ := writeOut_writes e
      (f := { f.prepared e with pFile := some Stream.start, disk := d }) rfl hcontent
    have htext : accepted e d.tick f.events = serialize f.events :=
      htick ▸ accepted_of_ok hwrites
    have hsettled := hend (by rw [htick]; exact hflush)
    rw [hsync]
    refine ⟨?_, rfl, rfl, hsettled.1, hsettled.2.trans ?_⟩
    · exact ⟨hall.queue.heap, hall.queue.first, hall.queue.last, hall.queue.size,
        hall.queue.maxSize⟩
    · change some (overwrite _ 0 (accepted e d.tick f.events)) = _
      rw [htext, overwrite_all hbase]
  · exact absurd hopens hno

theorem n2aCsync_of_savesWell {e : FileEnv} {f : Fifo} (hdirty : f.dirty = true)
    (hlock : f.fileLock = false) (hsettled : f.Settled) (hopens : f.Opens e)
    (hwell : f.SavesWell e) :
    f.SameQueue (n2aCsync e f).2 ∧ (n2aCsync e f).2.dirty = false ∧
      (n2aCsync e f).2.fileLock = false ∧ (n2aCsync e f).2.Settled ∧
      (n2aCsync e f).2.disk.content = some (serialize f.events) := by
  obtain ⟨hfits, hwrites, hflush⟩ := hwell hdirty hopens
  exact n2aCsync_of_writes hdirty hlock hopens (hsettled.base_length_le hfits) hwrites hflush

/-- Where nothing fails the old file is gone before the new one is opened. -/
theorem n2aCsync_of_allSucceed {e : FileEnv} (he : e.AllSucceed) {f : Fifo}
    (hdirty : f.dirty = true) (hlock : f.fileLock = false) :
    (n2aCsync e f).2.disk.content = some (serialize f.events) := by
  have hgone : ¬ f.Reuses e := fun h => absurd (h.2.1.symm.trans (he.unlink _)) (by simp)
  have hbase : f.base e = [] := by rw [Fifo.base, if_neg hgone]
  exact (n2aCsync_of_writes hdirty hlock (Or.inr (he.fopen _)) (by rw [hbase]; exact Nat.zero_le _)
    (fun i _ => he.fprintf _) (he.fflush _)).2.2.2.2

theorem n2aCsync_of_not_opens {e : FileEnv} {f : Fifo} (hdirty : f.dirty = true)
    (hlock : f.fileLock = false) (hno : ¬ f.Opens e) :
    f.SameQueue (n2aCsync e f).2 ∧ (n2aCsync e f).1 = 0 ∧ (n2aCsync e f).2.dirty = true ∧
      (n2aCsync e f).2.fileLock = false ∧ (n2aCsync e f).2.Settled ∧
      (n2aCsync e f).2.disk.content = (f.cleared e).content := by
  rcases n2aCsync_cases e hdirty hlock with ⟨hopens, -⟩ | ⟨-, d, hcontent, -, hsync⟩
  · exact absurd hopens hno
  · rw [hsync]
    exact ⟨⟨rfl, rfl, rfl, rfl, rfl⟩, rfl, hdirty, rfl, fun _ hst => absurd hst (by simp [Fifo.prepared]), hcontent⟩

theorem n2aCsync_sameQueue (e : FileEnv) (f : Fifo) : f.SameQueue (n2aCsync e f).2 := by
  cases hdirty : f.dirty with
  | false =>
      have hsame : (n2aCsync e f).2 = f := by simp [n2aCsync, hdirty]
      rw [hsame]
      exact .refl f
  | true =>
      cases hlock : f.fileLock with
      | true =>
          have hsame : (n2aCsync e f).2 = f := by simp [n2aCsync, hdirty, hlock]
          rw [hsame]
          exact .refl f
      | false =>
          rcases n2aCsync_cases e hdirty hlock with ⟨-, d, -, hcontent, -, hsync⟩ |
            ⟨-, d, -, -, hsync⟩
          · obtain ⟨hall, -⟩ := writeOut_writes e
              (f := { f.prepared e with pFile := some Stream.start, disk := d }) rfl hcontent
            rw [hsync]
            exact ⟨hall.queue.heap, hall.queue.first, hall.queue.last, hall.queue.size,
              hall.queue.maxSize⟩
          · rw [hsync]
            exact ⟨rfl, rfl, rfl, rfl, rfl⟩

/-! ## Interrupted saves -/

/-- What the file may hold when `n2a_csync` is cut short. -/
def Fifo.MayShow (e : FileEnv) (f : Fifo) (c : Option Bytes) : Prop :=
  c = f.disk.content ∨ c = f.closing e ∨ (c = none ∧ e.unlink f.unlinkTick = true) ∨
    (f.Opens e ∧ Partial (f.base e) (accepted e (f.writeTick e) f.events) c)

theorem Fifo.mayShow_cleared (e : FileEnv) (f : Fifo) : f.MayShow e (f.cleared e).content := by
  rw [Fifo.cleared_content]
  split
  · rename_i hremoved
    exact Or.inr (Or.inr (Or.inl ⟨rfl, hremoved⟩))
  · exact Or.inr (Or.inl rfl)

/-- One event queued since the file was last written. -/
def Fifo.oneUnsaved : Fifo :=
  (enqueue Heap.bump (created 5 ⟨some [107, 10, 109, 10], []⟩) ⟨.lit "a", .lit "b"⟩).2

end Neb2Amqp
