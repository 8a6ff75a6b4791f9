import Neb2Amqp.Fifo.Contents

/-!
# The cache file of fifo.c

Saving the queue, loading it again and the handling of the `FILE *` between the
two. Arrays on the stack keep what the previous iteration left in them.
-/

namespace Neb2Amqp

open CLib

/-- `EVENT_MSG_MAX_SIZE`, the size of both arrays of `n2a_load`. -/
def eventMsgMaxSize : Nat := 8192

def n2aFifoOpenFile (e : FileEnv) (f : Fifo) : Int32 × Fifo :=
  match f.pFile with
  | some _ => (1, f)
  | none =>
      match fopenR e f.disk with
      | (some st, d) => (1, { f with pFile := some st, disk := d })
      | (none, d) =>
          match fopenW e d with
          | (some st, d) => (1, { f with pFile := some st, disk := d })
          | (none, d) => (0, { f with disk := d })

theorem n2aFifoOpenFile_cases (e : FileEnv) {f : Fifo} (hclosed : f.pFile = none) :
    (∃ old, f.disk.content = some old ∧ e.fopen f.disk.tick = true ∧
      n2aFifoOpenFile e f =
        (1, { f with pFile := some Stream.start, disk := f.disk.record (some old) })) ∨
    (¬ (e.fopen f.disk.tick = true ∧ f.disk.content.isSome) ∧ e.fopen (f.disk.tick + 1) = true ∧
      n2aFifoOpenFile e f = (1, { f with
        pFile := some Stream.start, disk := (f.disk.record f.disk.content).record (some []) })) ∨
    (¬ (e.fopen f.disk.tick = true ∧ f.disk.content.isSome) ∧ e.fopen (f.disk.tick + 1) = false ∧
      n2aFifoOpenFile e f =
        (0, { f with disk := (f.disk.record f.disk.content).record f.disk.content })) := by
  unfold n2aFifoOpenFile
  simp only [hclosed, fopenR]
  by_cases hr : e.fopen f.disk.tick = true ∧ f.disk.content.isSome
  · obtain ⟨old, hold⟩ := Option.isSome_iff_exists.mp hr.2
    exact Or.inl ⟨old, hold, hr.1, by simp [hr, hold]⟩
  · simp only [hr, if_false, fopenW, Disk.record_tick, Disk.record_content, not_false_eq_true,
      true_and]
    cases hw : e.fopen (f.disk.tick + 1)
    · exact Or.inr (Or.inr ⟨rfl, by simp⟩)
    · exact Or.inr (Or.inl ⟨rfl, by simp⟩)

def n2aClear (e : FileEnv) (f : Fifo) : Int32 × Fifo :=
  let f :=
    match f.pFile with
    | some st => { f with pFile := none, disk := fclose e st f.disk }
    | none => f
  let (r, d) := unlink e f.disk
  (r, { f with disk := d })

/-- One event as the format string writes it. -/
def Event.record (ev : Event) : Bytes := ev.rk.bytes ++ [10] ++ ev.msg.bytes ++ [10]

def serialize (q : List Event) : Bytes := (q.map Event.record).flatten

def fprintfEvent (e : FileEnv) (f : Fifo) (ev : Event) : Fifo :=
  match f.pFile with
  | some st =>
      let (st, d) := fprintf e ev.record st f.disk
      { f with pFile := some st, disk := d }
  | none => f

def fflushFile (e : FileEnv) (f : Fifo) : Fifo :=
  match f.pFile with
  | some st =>
      let (st, d) := fflush e st f.disk
      { f with pFile := some st, disk := d }
  | none => f

/-- The results of `fprintf` and `fflush` are not looked at. -/
def n2aCsync (e : FileEnv) (f : Fifo) : Int32 × Fifo :=
  if !f.dirty then (0, f)
  else if f.fileLock then (0, f)
  else
    let f := { f with fileLock := true }
    let f := (n2aClear e f).2
    let (opened, f) := n2aFifoOpenFile e f
    if opened = 0 then (0, { f with fileLock := false })
    else
      let written := f.events
      let f := written.foldl (fprintfEvent e) f
      let f := fflushFile e f
      (Int32.ofNat written.length, { f with fileLock := false, dirty := false })

/-- What `n2a_free_fifo` leaves of the file. The queue itself is gone afterwards. -/
def n2aFreeFifo (e : FileEnv) (f : Fifo) : Disk :=
  let f := (n2aCsync e f).2
  match f.pFile with
  | some st => fclose e st f.disk
  | none => f.disk

/-! ## n2a_load -/

/-- The arrays of one iteration after its two `fgets`, with their results. -/
structure ReadPair where
  rk : Bytes
  msg : Bytes
  gotRk : Bool
  gotMsg : Bool

structure LoadState where
  fifo : Fifo
  rk : Bytes
  msg : Bytes
  i : Nat
  reads : List ReadPair

/-- `buf[strlen (buf) - 1] = 0`. For an empty string the index wraps to a byte
outside the array, which itself stays as it is. -/
def stripLast (buf : Bytes) : Bytes :=
  if arrayStrlen buf = 0 then buf else buf.set (arrayStrlen buf - 1) 0

def loadStep (e : FileEnv) (m : Malloc EventNode) (st : Stream) (s : LoadState) : LoadState :=
  let (gotRk, rk, st, d) := fgets e eventMsgMaxSize s.rk st s.fifo.disk
  let (gotMsg, msg, st, d) := fgets e eventMsgMaxSize s.msg st d
  let f := { s.fifo with pFile := some st, disk := d }
  let ev : Event := ⟨.ofBytes (stripLast rk), .ofBytes (stripLast msg)⟩
  ⟨(enqueue m f ev).2, stripLast rk, stripLast msg, s.i + 1,
    s.reads ++ [⟨rk, msg, gotRk, gotMsg⟩]⟩

/-- `while (!feof (pFile))`; `none` when the fuel does not suffice. -/
def loadLoop (e : FileEnv) (m : Malloc EventNode) : Nat → LoadState → Option LoadState
  | 0, _ => none
  | fuel + 1, s =>
      match s.fifo.pFile with
      | none => some s
      | some st => if st.eof then some s else loadLoop e m fuel (loadStep e m st s)

/-- What `n2a_load` does behind its loop. -/
def LoadState.finish (e : FileEnv) (s : LoadState) : LoadState :=
  let f :=
    match s.fifo.pFile with
    | some st => { s.fifo with pFile := none, disk := fclose e st s.fifo.disk }
    | none => s.fifo
  { s with fifo := { f with fileLock := false } }

/-- `stack` is what the two arrays happen to hold at first. -/
def n2aLoad (e : FileEnv) (m : Malloc EventNode) (stack : Bytes × Bytes) (fuel : Nat) (f : Fifo) :
    Option LoadState :=
  if f.fileLock then some ⟨f, stack.1, stack.2, 0, []⟩
  else
    let (opened, f) := n2aFifoOpenFile e f
    if opened = 0 then some ⟨f, stack.1, stack.2, 0, []⟩
    else
      let f := { f with fileLock := true, pFile := f.pFile.map Stream.rewind }
      (loadLoop e m fuel ⟨f, stack.1, stack.2, 0, []⟩).map (·.finish e)

def n2aFifoInit (e : FileEnv) (m : Malloc EventNode) (stack : Bytes × Bytes) (fuel : Nat)
    (maxSize : Int32) (disk : Disk) : Option Fifo :=
  (n2aLoad e m stack fuel (Fifo.created maxSize.toUInt32 disk)).map (·.fifo)

theorem LoadState.finish_closed (e : FileEnv) (s : LoadState) :
    (s.finish e).fifo.pFile = none ∧ (s.finish e).fifo.fileLock = false := by
  unfold LoadState.finish
  cases hp : s.fifo.pFile <;> simp [hp]

theorem LoadState.finish_carries (e : FileEnv) {s : LoadState} {q : List Event}
    (h : s.fifo.Carries q) : (s.finish e).fifo.Carries q := by
  unfold LoadState.finish
  cases hp : s.fifo.pFile <;> exact h.of_same rfl rfl rfl rfl rfl

/-- However loading went, the file is closed and unlocked afterwards. -/
theorem n2aFifoInit_closed {e : FileEnv} {m : Malloc EventNode} {stack : Bytes × Bytes}
    {fuel : Nat} {maxSize : Int32} {disk : Disk} {f : Fifo}
    (hinit : n2aFifoInit e m stack fuel maxSize disk = some f) :
    f.pFile = none ∧ f.fileLock = false := by
  obtain ⟨s, hload, rfl⟩ := Option.map_eq_some_iff.mp hinit
  unfold n2aLoad at hload
  rw [if_neg (by simp [Fifo.created])] at hload
  rcases n2aFifoOpenFile_cases e (f := Fifo.created maxSize.toUInt32 disk) rfl with
    ⟨old, -, -, hopen⟩ | ⟨-, -, hopen⟩ | ⟨-, -, hopen⟩
  · rw [hopen] at hload
    obtain ⟨s', -, rfl⟩ := Option.map_eq_some_iff.mp hload
    exact s'.finish_closed e
  · rw [hopen] at hload
    obtain ⟨s', -, rfl⟩ := Option.map_eq_some_iff.mp hload
    exact s'.finish_closed e
  · rw [hopen] at hload
    cases hload
    exact ⟨rfl, rfl⟩

end Neb2Amqp
