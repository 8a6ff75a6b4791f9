import Neb2Amqp.Fifo.Csync

/-!
# Loading any file

What holds of `n2a_load` whatever the file contains: each round queues one event,
the loop comes to an end, and the queue it leaves is well formed.
-/

namespace Neb2Amqp

open CLib

/-- The event a round makes of its two arrays. -/
def ReadPair.event (r : ReadPair) : Event := ⟨.ofBytes (stripLast r.rk), .ofBytes (stripLast r.msg)⟩

/-- The events handed to `n2a_push` so far, in order. -/
def LoadState.pushed (s : LoadState) : List Event := s.reads.map ReadPair.event

@[simp] theorem LoadState.finish_pushed (e : FileEnv) (s : LoadState) :
    (s.finish e).pushed = s.pushed := rfl

theorem LoadState.finish_maxSize (e : FileEnv) (s : LoadState) :
    (s.finish e).fifo.maxSize = s.fifo.maxSize := by
  unfold LoadState.finish
  cases hp : s.fifo.pFile <;> rfl

/-- Both texts stay on their lines. -/
structure Event.Unbroken (ev : Event) : Prop where
  rk : (10 : UInt8) ∉ ev.rk.bytes
  msg : (10 : UInt8) ∉ ev.msg.bytes

/-- Both lines fit the arrays, newline and terminator included. -/
structure Event.Fits (ev : Event) : Prop where
  rk : ev.rk.strlen ≤ eventMsgMaxSize - 2
  msg : ev.msg.strlen ≤ eventMsgMaxSize - 2

theorem Event.record_append (ev : Event) (rest : Bytes) :
    ev.record ++ rest = ev.rk.bytes ++ 10 :: (ev.msg.bytes ++ 10 :: rest) := by
  simp [record]

section
variable {e : FileEnv} {m : Malloc EventNode}

theorem loadStep_pushed {s : LoadState} {st st' : Stream} {gotRk gotMsg : Bool} {rk msg : Bytes}
    {d : Disk} {after : Stream × Disk}
    (hrk : fgets e eventMsgMaxSize s.rk st s.fifo.disk = (gotRk, rk, st', d))
    (hmsg : fgets e eventMsgMaxSize s.msg st' d = (gotMsg, msg, after)) :
    (loadStep e m st s).pushed =
      s.pushed ++ [⟨.ofBytes (stripLast rk), .ofBytes (stripLast msg)⟩] := by
  simp [loadStep, LoadState.pushed, hrk, hmsg, ReadPair.event]

theorem loadStep_file {s : LoadState} {st st' st'' : Stream} {gotRk gotMsg : Bool} {rk msg : Bytes}
    {d d' : Disk} (hrk : fgets e eventMsgMaxSize s.rk st s.fifo.disk = (gotRk, rk, st', d))
    (hmsg : fgets e eventMsgMaxSize s.msg st' d = (gotMsg, msg, st'', d')) :
    (loadStep e m st s).fifo.pFile = some st'' ∧ (loadStep e m st s).fifo.disk = d' := by
  simp only [loadStep, hrk, hmsg]
  have hfile := enqueue_sameFile m { s.fifo with pFile := some st'', disk := d' }
    ⟨.ofBytes (stripLast rk), .ofBytes (stripLast msg)⟩
  exact ⟨hfile.pFile, hfile.disk⟩

variable (e m) in
theorem loadStep_enqueues (st : Stream) (s : LoadState) :
    ∃ st' d ev, (loadStep e m st s).pushed = s.pushed ++ [ev] ∧
      (loadStep e m st s).fifo =
        (enqueue m { s.fifo with pFile := some st', disk := d } ev).2 :=
  ⟨_, _, _, loadStep_pushed rfl rfl, rfl⟩

theorem loadLoop_step {fuel : Nat} {s : LoadState} {st : Stream} (hst : s.fifo.pFile = some st)
    (hmore : st.eof = false) :
    loadLoop e m (fuel + 1) s = loadLoop e m fuel (loadStep e m st s) := by
  simp [loadLoop, hst, hmore]

theorem loadLoop_pushed {fuel : Nat} {s s' : LoadState} (h : loadLoop e m fuel s = some s') :
    s.pushed <+: s'.pushed := by
  induction fuel generalizing s with
  | zero => cases h
  | succ fuel ih =>
      unfold loadLoop at h
      split at h
      · cases h
        exact List.prefix_refl _
      · rename_i st hst
        split at h
        · cases h
          exact List.prefix_refl _
        · obtain ⟨_, _, ev, hpushed, -⟩ := loadStep_enqueues e m st s
          exact (hpushed ▸ List.prefix_append s.pushed [ev]).trans (ih h)

/-! ## The loop ends -/

section
variable (he : e.AllSucceed)
include he

theorem fgets_unread_line (buf : Bytes) {line : CString} {rest : Bytes} {st : Stream} {d : Disk}
    (h : st.unread d = line.bytes ++ 10 :: rest) (hnl : (10 : UInt8) ∉ line.bytes)
    (hfits : line.strlen ≤ eventMsgMaxSize - 2) :
    fgets e eventMsgMaxSize buf st d = (true, overwrite buf 0 (line.bytes ++ [10, 0]),
        { st with pos := st.pos + (line.strlen + 1) }, d.record d.content) ∧
      Stream.unread { st with pos := st.pos + (line.strlen + 1) } (d.record d.content) = rest := by
  have hroom : eventMsgMaxSize - 2 < eventMsgMaxSize - 1 := by decide
  refine ⟨fgets_line buf (he.fgets _) h hnl (Nat.lt_of_le_of_lt hfits hroom), ?_⟩
  change (d.content.getD []).drop (st.pos + (line.strlen + 1)) = rest
  change (d.content.getD []).drop st.pos = line.bytes ++ 10 :: rest at h
  rw [← List.drop_drop, h, ← List.drop_drop, CString.strlen, List.drop_left]
  rfl

theorem fgets_record (rk msg : Bytes) {ev : Event} {rest : Bytes} {st : Stream} {d : Disk}
    (h : st.unread d = ev.record ++ rest) (hev : ev.Unbroken) (hfits : ev.Fits) :
    let st' : Stream := { st with pos := st.pos + (ev.rk.strlen + 1) }
    let st'' : Stream := { st' with pos := st'.pos + (ev.msg.strlen + 1) }
    let d' := d.record d.content
    fgets e eventMsgMaxSize rk st d = (true, overwrite rk 0 (ev.rk.bytes ++ [10, 0]), st', d') ∧
      fgets e eventMsgMaxSize msg st' d' =
        (true, overwrite msg 0 (ev.msg.bytes ++ [10, 0]), st'', d'.record d'.content) ∧
      st''.unread (d'.record d'.content) = rest := by
  rw [Event.record_append] at h
  obtain ⟨hrk, hnext⟩ := fgets_unread_line he rk h hev.rk hfits.rk
  obtain ⟨hmsg, hrest⟩ := fgets_unread_line he msg hnext hev.msg hfits.msg
  exact ⟨hrk, hmsg, hrest⟩

theorem loadStep_advances {s : LoadState} (st : Stream) :
    ∃ st', (loadStep e m st s).fifo.pFile = some st' ∧ st.Advances s.fifo.disk st' ∧
      (loadStep e m st s).fifo.disk.content = s.fifo.disk.content := by
  have hsize : 1 < eventMsgMaxSize := by decide
  obtain ⟨hrk, hsame⟩ := fgets_advances s.rk st (d := s.fifo.disk) (he.fgets _) hsize
  generalize hfirst : fgets e eventMsgMaxSize s.rk st s.fifo.disk = first at hrk hsame
  obtain ⟨gotRk, rk, st₁, d₁⟩ := first
  obtain ⟨hmsg, hsame'⟩ := fgets_advances s.msg st₁ (he.fgets d₁.tick) hsize
  generalize hsecond : fgets e eventMsgMaxSize s.msg st₁ d₁ = second at hmsg hsame'
  obtain ⟨gotMsg, msg, st₂, d₂⟩ := second
  have hfile := enqueue_sameFile m { s.fifo with pFile := some st₂, disk := d₂ }
    ⟨.ofBytes (stripLast rk), .ofBytes (stripLast msg)⟩
  have hstep : (loadStep e m st s).fifo = (enqueue m { s.fifo with pFile := some st₂, disk := d₂ }
      ⟨.ofBytes (stripLast rk), .ofBytes (stripLast msg)⟩).2 := by
    simp only [loadStep, hfirst, hsecond]
  have hunread : ∀ st' : Stream, st'.unread d₁ = st'.unread s.fifo.disk := by
    intro st'
    exact congrArg (fun content : Option Bytes => (content.getD []).drop st'.pos) hsame
  refine ⟨st₂, ?_, hrk.trans ⟨hmsg.ended, ?_, ?_⟩, ?_⟩
  · rw [hstep, hfile.pFile]
  · rw [← hunread, ← hunread]
    exact hmsg.forward
  · rw [← hunread, ← hunread]
    exact hmsg.taken
  · rw [hstep, hfile.disk]
    exact hsame'.trans hsame

/-- Every round that does not find the end of the file takes a byte of it. -/
theorem loadLoop_ends (n : Nat) {s : LoadState} {st : Stream} (hst : s.fifo.pFile = some st)
    (hleft : (st.unread s.fifo.disk).length ≤ n) :
    ∃ s', ∀ fuel ≥ n + 2, loadLoop e m fuel s = some s' := by
  cases heof : st.eof with
  | true =>
      refine ⟨s, fun fuel hfuel => ?_⟩
      obtain ⟨k, rfl⟩ : ∃ k, fuel = k + 1 := ⟨fuel - 1, by omega⟩
      simp [loadLoop, hst, heof]
  | false =>
      obtain ⟨st', hst', hadvances, hcontent⟩ := loadStep_advances (m := m) he (s := s) st
      -- one round less is needed from here on
      have hnext : ∃ s', ∀ fuel ≥ n + 1, loadLoop e m fuel (loadStep e m st s) = some s' := by
        rcases hadvances.taken with heof' | hlt
        · refine ⟨loadStep e m st s, fun fuel hfuel => ?_⟩
          obtain ⟨k, rfl⟩ : ∃ k, fuel = k + 1 := ⟨fuel - 1, by omega⟩
          simp [loadLoop, hst', heof']
        · cases n with
          | zero => omega
          | succ n =>
              apply loadLoop_ends n hst'
              have hunread : st'.unread (loadStep e m st s).fifo.disk = st'.unread s.fifo.disk :=
                congrArg (fun content : Option Bytes => (content.getD []).drop st'.pos) hcontent
              rw [hunread]
              omega
      obtain ⟨s', hloop⟩ := hnext
      refine ⟨s', fun fuel hfuel => ?_⟩
      obtain ⟨k, rfl⟩ : ∃ k, fuel = k + 1 := ⟨fuel - 1, by omega⟩
      rw [loadLoop_step hst heof]
      exact hloop k (by omega)

end

/-- Where the loop starts on a file that is there. -/
def LoadState.start (maxSize : UInt32) (stack : Bytes × Bytes) (disk : Disk) : LoadState where
  fifo := { Fifo.created maxSize disk with
    pFile := some Stream.start, disk := disk.record disk.content, fileLock := true }
  rk := stack.1
  msg := stack.2
  i := 0
  reads := []

theorem n2aLoad_of_content (he : e.AllSucceed) (stack : Bytes × Bytes) (fuel : Nat)
    (maxSize : UInt32) {disk : Disk} {old : Bytes} (hdisk : disk.content = some old) :
    n2aLoad e m stack fuel (Fifo.created maxSize disk) =
      (loadLoop e m fuel (.start maxSize stack disk)).map (·.finish e) := by
  rcases n2aFifoOpenFile_cases e (f := Fifo.created maxSize disk) rfl with
    ⟨old', hold, -, hopen⟩ | ⟨hno, -⟩ | ⟨hno, -⟩
  · change disk.content = some old' at hold
    simp only [n2aLoad, hopen, ← hold]
    rfl
  · exact absurd ⟨he.fopen _, by simp [Fifo.created, hdisk]⟩ hno
  · exact absurd ⟨he.fopen _, by simp [Fifo.created, hdisk]⟩ hno

/-! ## The queue stays well formed -/

theorem loadLoop_carries {fuel : Nat} {s s' : LoadState} (h : loadLoop e m fuel s = some s')
    {q : List Event} (hq : s.fifo.Carries q) (hpos : 0 < s.fifo.maxSize.toNat) :
    (∃ q', s'.fifo.Carries q') ∧ s'.fifo.maxSize = s.fifo.maxSize := by
  induction fuel generalizing s q with
  | zero => cases h
  | succ fuel ih =>
      unfold loadLoop at h
      split at h
      · cases h
        exact ⟨⟨q, hq⟩, rfl⟩
      · rename_i st hst
        split at h
        · cases h
          exact ⟨⟨q, hq⟩, rfl⟩
        · obtain ⟨st', d, ev, -, hfifo⟩ := loadStep_enqueues e m st s
          have hread : { s.fifo with pFile := some st', disk := d : Fifo }.Carries q :=
            hq.of_same rfl rfl rfl rfl rfl
          have hnext := enqueue_carries hread hpos m ev
          have hmax : (loadStep e m st s).fifo.maxSize = s.fifo.maxSize := by
            rw [hfifo]
            exact (enqueue_sameFile m _ ev).maxSize
          rw [← hfifo] at hnext
          obtain ⟨hcarries, hsame⟩ := ih h hnext (by rw [hmax]; exact hpos)
          exact ⟨hcarries, hsame.trans hmax⟩

theorem n2aFifoInit_carries {stack : Bytes × Bytes} {fuel : Nat} {maxSize : Int32} {disk : Disk}
    {f : Fifo} (hpos : 0 < maxSize.toUInt32.toNat)
    (hinit : n2aFifoInit e m stack fuel maxSize disk = some f) :
    (∃ q, f.Carries q) ∧ f.maxSize = maxSize.toUInt32 := by
  obtain ⟨s, hload, rfl⟩ := Option.map_eq_some_iff.mp hinit
  unfold n2aLoad at hload
  rw [if_neg (by simp [Fifo.created])] at hload
  have hcreated := Fifo.created_carries maxSize.toUInt32 disk
  -- the loop starts from the empty queue, with the file opened and locked
  have hrun : ∀ {pFile d s}, (loadLoop e m fuel ⟨{ Fifo.created maxSize.toUInt32 disk with
      pFile := pFile, disk := d, fileLock := true }, stack.1, stack.2, 0, []⟩).map (·.finish e) =
        some s → (∃ q, s.fifo.Carries q) ∧ s.fifo.maxSize = maxSize.toUInt32 := by
    intro pFile d s hs
    obtain ⟨t, ht, rfl⟩ := Option.map_eq_some_iff.mp hs
    obtain ⟨⟨q, hq⟩, hmax⟩ := loadLoop_carries ht (hcreated.of_same rfl rfl rfl rfl rfl) hpos
    exact ⟨⟨q, LoadState.finish_carries e hq⟩, (t.finish_maxSize e).trans hmax⟩
  rcases n2aFifoOpenFile_cases e (f := Fifo.created maxSize.toUInt32 disk) rfl with
    ⟨old, -, -, hopen⟩ | ⟨-, -, hopen⟩ | ⟨-, -, hopen⟩
  · rw [hopen] at hload
    exact hrun hload
  · rw [hopen] at hload
    exact hrun hload
  · rw [hopen] at hload
    cases hload
    exact ⟨⟨[], hcreated.of_same rfl rfl rfl rfl rfl⟩, rfl⟩

end

end Neb2Amqp
