import Mathlib.Data.List.Basic
import Neb2Amqp.Library.CString

/-!
# One file and the streams opened on it

A `Disk` is the file system's view of a single path together with the contents
the path had after each operation so far. A stream keeps written bytes in a
buffer until they are drained; every call may fail, and what a failing call
still achieves is chosen by the environment.
-/

namespace CLib

/-- What one output call does. A failing call buffers only `accepted` bytes of
its text; `drained` bytes of the buffer reach the file in either case, unless
the call flushes everything. -/
structure Outcome where
  ok : Bool
  accepted : Nat
  drained : Nat

/-- The results of the calls, indexed by the number of calls made before. A
failing `fgets` overwrites a prefix of its array. -/
structure FileEnv where
  fopen : Nat → Bool
  unlink : Nat → Bool
  fprintf : Nat → Outcome
  fflush : Nat → Outcome
  fclose : Nat → Outcome
  fgets : Nat → Option Bytes

structure FileEnv.AllSucceed (e : FileEnv) : Prop where
  fopen : ∀ n, e.fopen n = true
  unlink : ∀ n, e.unlink n = true
  fprintf : ∀ n, (e.fprintf n).ok = true
  fflush : ∀ n, (e.fflush n).ok = true
  fclose : ∀ n, (e.fclose n).ok = true
  fgets : ∀ n, e.fgets n = none

/-- Every call does all its work. -/
def FileEnv.reliable : FileEnv where
  fopen _ := true
  unlink _ := true
  fprintf _ := ⟨true, 0, 0⟩
  fflush _ := ⟨true, 0, 0⟩
  fclose _ := ⟨true, 0, 0⟩
  fgets _ := none

theorem FileEnv.reliable_allSucceed : reliable.AllSucceed :=
  ⟨fun _ => rfl, fun _ => rfl, fun _ => rfl, fun _ => rfl, fun _ => rfl, fun _ => rfl⟩

/-- The file at one path, absent or holding some bytes, and what it held after
each operation so far. -/
structure Disk where
  content : Option Bytes
  history : List (Option Bytes)

namespace Disk

def tick (d : Disk) : Nat := d.history.length

def record (d : Disk) (content : Option Bytes) : Disk := ⟨content, d.history ++ [content]⟩

@[simp] theorem record_content (d : Disk) (c : Option Bytes) : (d.record c).content = c := rfl

@[simp] theorem record_history (d : Disk) (c : Option Bytes) :
    (d.record c).history = d.history ++ [c] := rfl

@[simp] theorem record_tick (d : Disk) (c : Option Bytes) : (d.record c).tick = d.tick + 1 := by
  simp [tick]

/-- Every content the file shows on the way from `d` to `d'` satisfies `P`. -/
def Passes (d : Disk) (P : Option Bytes → Prop) (d' : Disk) : Prop :=
  ∃ shown, d'.history = d.history ++ shown ∧ ∀ c ∈ shown, P c

namespace Passes

variable {P Q : Option Bytes → Prop} {d d' d'' : Disk}

theorem refl (P : Option Bytes → Prop) (d : Disk) : d.Passes P d := ⟨[], by simp, by simp⟩

theorem record (d : Disk) {c : Option Bytes} (hc : P c) : d.Passes P (d.record c) :=
  ⟨[c], rfl, by simpa using hc⟩

theorem trans (h : d.Passes P d') (h' : d'.Passes P d'') : d.Passes P d'' := by
  obtain ⟨shown, hshown, hp⟩ := h
  obtain ⟨more, hmore, hp'⟩ := h'
  refine ⟨shown ++ more, by rw [hmore, hshown, List.append_assoc], fun c hc => ?_⟩
  exact (List.mem_append.mp hc).elim (hp c) (hp' c)

theorem mono (h : d.Passes P d') (hpq : ∀ c, P c → Q c) : d.Passes Q d' := by
  obtain ⟨shown, hshown, hp⟩ := h
  exact ⟨shown, hshown, fun c hc => hpq c (hp c hc)⟩

end Passes

end Disk

structure Stream where
  pos : Nat
  pending : Bytes
  eof : Bool
  error : Bool

def Stream.start : Stream := ⟨0, [], false, false⟩

/-- Writing `data` over `c` from offset `pos`. -/
def overwrite (c : Bytes) (pos : Nat) (data : Bytes) : Bytes :=
  c.take pos ++ data ++ c.drop (pos + data.length)

theorem overwrite_zero (c data : Bytes) : overwrite c 0 data = data ++ c.drop data.length := by
  simp [overwrite]

@[simp] theorem overwrite_nil (c : Bytes) (pos : Nat) : overwrite c pos [] = c := by
  simp [overwrite]

theorem overwrite_all {c data : Bytes} (h : c.length ≤ data.length) :
    overwrite c 0 data = data := by
  rw [overwrite_zero, List.drop_of_length_le h, List.append_nil]

/-- Consecutive writes are one write of the concatenation. -/
theorem overwrite_append {c : Bytes} {pos : Nat} (hpos : pos ≤ c.length) (data more : Bytes) :
    overwrite (overwrite c pos data) (pos + data.length) more =
      overwrite c pos (data ++ more) := by
  have htake : (c.take pos).length = pos := by simp [hpos]
  have hdata : (c.take pos ++ data).length = pos + data.length := by simp [hpos]
  unfold overwrite
  rw [List.take_append_of_le_length (by omega), List.take_of_length_le (by omega)]
  rw [List.drop_append, List.drop_of_length_le (l := c.take pos ++ data) (by omega), hdata]
  rw [List.drop_drop, List.nil_append, List.length_append]
  have harith : pos + data.length + (pos + data.length + more.length - (pos + data.length)) =
      pos + (data.length + more.length) := by omega
  rw [harith]
  simp [List.append_assoc]

namespace Stream

/-- The stream after `n` buffered bytes went out. -/
def drain (n : Nat) (st : Stream) : Stream :=
  { st with pos := st.pos + (st.pending.take n).length, pending := st.pending.drop n }

/-- The file after `n` buffered bytes went out. -/
def written (n : Nat) (st : Stream) (content : Option Bytes) : Option Bytes :=
  content.map fun c => overwrite c st.pos (st.pending.take n)

/-- A stream writing over `old` that has accepted `text` so far: the file shows a
prefix of the text, the rest is still buffered. -/
structure Writing (old text : Bytes) (st : Stream) (content : Option Bytes) : Prop where
  pos_le : st.pos ≤ text.length
  pending_eq : st.pending = text.drop st.pos
  content_eq : content = some (overwrite old 0 (text.take st.pos))

namespace Writing

variable {old text : Bytes} {st : Stream} {content : Option Bytes}

theorem start (old : Bytes) : Writing old [] Stream.start (some old) :=
  ⟨Nat.le_refl _, rfl, by simp⟩

theorem accept (h : Writing old text st content) (more : Bytes) (error : Bool) :
    Writing old (text ++ more) { st with pending := st.pending ++ more, error := error } content := by
  refine ⟨?_, ?_, ?_⟩
  · rw [List.length_append]
    exact Nat.le_add_right_of_le h.pos_le
  · rw [List.drop_append_of_le_length h.pos_le, ← h.pending_eq]
  · rw [List.take_append_of_le_length h.pos_le]
    exact h.content_eq

theorem drain (h : Writing old text st content) (n : Nat) :
    Writing old text (st.drain n) (st.written n content) := by
  have hpos := h.pos_le
  have hout : st.pending.take n = (text.drop st.pos).take n := by rw [h.pending_eq]
  have hnext : (st.drain n).pos = st.pos + min n (text.length - st.pos) := by
    simp only [Stream.drain, hout, List.length_take, List.length_drop]
  have hcut : text.take st.pos ++ st.pending.take n = text.take (st.drain n).pos := by
    rw [hout, ← List.take_add, hnext, List.take_eq_take_iff]
    omega
  have hlen : (text.take st.pos).length = st.pos := List.length_take_of_le hpos
  refine ⟨?_, ?_, ?_⟩
  · omega
  · have hdrop : (st.drain n).pending = text.drop (st.pos + n) := by
      rw [Stream.drain, h.pending_eq, List.drop_drop]
    rw [hdrop, hnext, List.drop_eq_drop_iff]
    omega
  · have happend := overwrite_append (c := old) (Nat.zero_le _) (text.take st.pos)
      (st.pending.take n)
    rw [hlen, Nat.zero_add, hcut] at happend
    rw [Stream.written, h.content_eq, Option.map_some, happend]

/-- Everything accepted is in the file once the buffer is empty. -/
theorem drain_all (h : Writing old text st content) :
    Writing old text (st.drain st.pending.length) (st.written st.pending.length content) ∧
      st.written st.pending.length content = some (overwrite old 0 text) := by
  have hall := h.drain st.pending.length
  have hempty : (st.drain st.pending.length).pending = [] := List.drop_length
  have hend : text.length ≤ (st.drain st.pending.length).pos :=
    List.drop_eq_nil_iff.mp (hall.pending_eq.symm.trans hempty)
  refine ⟨hall, ?_⟩
  rw [hall.content_eq, List.take_of_length_le hend]

end Writing

end Stream

/-! ## The calls -/

def fopenR (e : FileEnv) (d : Disk) : Option Stream × Disk :=
  (if e.fopen d.tick ∧ d.content.isSome then some Stream.start else none, d.record d.content)

/-- Mode `w+` creates the file or empties it. -/
def fopenW (e : FileEnv) (d : Disk) : Option Stream × Disk :=
  if e.fopen d.tick then (some Stream.start, d.record (some [])) else (none, d.record d.content)

/-- How much of its text an output call with this outcome takes over. -/
def Outcome.taken (r : Outcome) (text : Bytes) : Bytes :=
  if r.ok then text else text.take r.accepted

def fprintf (e : FileEnv) (text : Bytes) (st : Stream) (d : Disk) : Stream × Disk :=
  let r := e.fprintf d.tick
  let st := { st with pending := st.pending ++ r.taken text, error := st.error || !r.ok }
  (st.drain r.drained, d.record (st.written r.drained d.content))

/-- How much of the buffer a flush with this outcome puts out. -/
def Outcome.flushed (r : Outcome) (pending : Bytes) : Nat :=
  if r.ok then pending.length else r.drained

def fflush (e : FileEnv) (st : Stream) (d : Disk) : Stream × Disk :=
  let n := (e.fflush d.tick).flushed st.pending
  (st.drain n, d.record (st.written n d.content))

def fclose (e : FileEnv) (st : Stream) (d : Disk) : Disk :=
  d.record (st.written ((e.fclose d.tick).flushed st.pending) d.content)

def unlink (e : FileEnv) (d : Disk) : Int32 × Disk :=
  if e.unlink d.tick ∧ d.content.isSome then (0, d.record none) else (-1, d.record d.content)

theorem unlink_content (e : FileEnv) (d : Disk) :
    (unlink e d).2.content = if e.unlink d.tick then none else d.content := by
  unfold unlink
  cases d.content <;> cases e.unlink d.tick <;> simp

theorem unlink_tick (e : FileEnv) (d : Disk) : (unlink e d).2.tick = d.tick + 1 := by
  unfold unlink
  split <;> exact Disk.record_tick d _

theorem unlink_passes (e : FileEnv) (d : Disk) :
    d.Passes (· = (unlink e d).2.content) (unlink e d).2 := by
  unfold unlink
  split <;> exact Disk.Passes.record d rfl

/-- The bytes of a line, its newline included, cut after `n`. -/
def takeLine : Nat → Bytes → Bytes
  | 0, _ => []
  | _ + 1, [] => []
  | n + 1, c :: rest => if c = 10 then [c] else c :: takeLine n rest

/-- `fgets (buf, size, st)`: whether it returned `buf`, the array, the stream. -/
def fgets (e : FileEnv) (size : Nat) (buf : Bytes) (st : Stream) (d : Disk) :
    Bool × Bytes × Stream × Disk :=
  match e.fgets d.tick with
  | some scribble => (false, overwrite buf 0 scribble, { st with error := true }, d.record d.content)
  | none =>
      let rest := (d.content.getD []).drop st.pos
      let line := takeLine (size - 1) rest
      let ended := line.length = rest.length ∧ line.length < size - 1 ∧ line.getLast? ≠ some 10
      let st := { st with pos := st.pos + line.length, eof := st.eof || decide ended }
      if line = [] then (false, buf, st, d.record d.content)
      else (true, overwrite buf 0 (line ++ [0]), st, d.record d.content)

/-- `strlen` of a char array. -/
def arrayStrlen (buf : Bytes) : Nat := (buf.takeWhile (· != 0)).length

/-- `rewind` also clears the indicators of the stream. -/
def Stream.rewind (st : Stream) : Stream := { st with pos := 0, eof := false, error := false }

theorem fprintf_writing {e : FileEnv} {old text : Bytes} {st : Stream} {d : Disk}
    (h : st.Writing old text d.content) (more : Bytes) :
    (fprintf e more st d).1.Writing old (text ++ (e.fprintf d.tick).taken more)
      (fprintf e more st d).2.content :=
  (h.accept _ _).drain _

theorem fflush_writing {e : FileEnv} {old text : Bytes} {st : Stream} {d : Disk}
    (h : st.Writing old text d.content) :
    (fflush e st d).1.Writing old text (fflush e st d).2.content :=
  h.drain _

theorem fflush_of_ok {e : FileEnv} {old text : Bytes} {st : Stream} {d : Disk}
    (h : st.Writing old text d.content) (hok : (e.fflush d.tick).ok = true) :
    (fflush e st d).1.pending = [] ∧
      (fflush e st d).2.content = some (overwrite old 0 text) := by
  simp only [fflush, Outcome.flushed, hok, if_true]
  exact ⟨List.drop_length, h.drain_all.2⟩

/-! ## Lines -/

theorem takeLine_of_line {n : Nat} {line rest : Bytes} (hnl : (10 : UInt8) ∉ line)
    (hlen : line.length < n) : takeLine n (line ++ 10 :: rest) = line ++ [10] := by
  induction line generalizing n with
  | nil =>
      cases n with
      | zero => simp at hlen
      | succ n => simp [takeLine]
  | cons c line ih =>
      cases n with
      | zero => simp at hlen
      | succ n =>
          have hc : c ≠ 10 := fun h => hnl (by simp [h])
          have hrest : takeLine n (line ++ 10 :: rest) = line ++ [10] :=
            ih (fun h => hnl (List.mem_cons_of_mem c h)) (by simpa using hlen)
          simp [takeLine, hc, hrest]

theorem takeLine_of_long {n : Nat} {line : Bytes} (rest : Bytes) (hnl : (10 : UInt8) ∉ line)
    (hlong : n ≤ line.length) : takeLine n (line ++ rest) = line.take n := by
  induction line generalizing n with
  | nil =>
      obtain rfl : n = 0 := Nat.le_zero.mp hlong
      rfl
  | cons c line ih =>
      cases n with
      | zero => rfl
      | succ n =>
          have hc : c ≠ 10 := fun h => hnl (by simp [h])
          have hrest : takeLine n (line ++ rest) = line.take n :=
            ih (fun h => hnl (List.mem_cons_of_mem c h)) (by simpa using hlong)
          simp [takeLine, hc, hrest]

/-- Reading a complete line that fits the array. -/
theorem fgets_line {e : FileEnv} {size : Nat} (buf : Bytes) {line rest : Bytes} {st : Stream} {d : Disk}
    (hok : e.fgets d.tick = none) (hrest : (d.content.getD []).drop st.pos = line ++ 10 :: rest)
    (hnl : (10 : UInt8) ∉ line) (hlen : line.length < size - 1) :
    fgets e size buf st d = (true, overwrite buf 0 (line ++ [10, 0]),
      { st with pos := st.pos + (line.length + 1) }, d.record d.content) := by
  simp [fgets, hok, hrest, takeLine_of_line hnl hlen]

/-- Reading the beginning of a line that fills the array. -/
theorem fgets_cut {e : FileEnv} {size : Nat} (buf : Bytes) {line rest : Bytes} {st : Stream} {d : Disk}
    (hok : e.fgets d.tick = none) (hrest : (d.content.getD []).drop st.pos = line ++ rest)
    (hnl : (10 : UInt8) ∉ line) (hlong : size - 1 ≤ line.length) (hsize : 1 < size) :
    fgets e size buf st d = (true, overwrite buf 0 (line.take (size - 1) ++ [0]),
      { st with pos := st.pos + (size - 1) }, d.record d.content) := by
  have hlength : (line.take (size - 1)).length = size - 1 := List.length_take_of_le hlong
  have hne : line.take (size - 1) ≠ [] := by
    intro hnil
    rw [hnil, List.length_nil] at hlength
    omega
  simp [fgets, hok, hrest, takeLine_of_long rest hnl hlong, hlength, hne]

theorem fgets_end {e : FileEnv} {size : Nat} (buf : Bytes) {st : Stream} {d : Disk}
    (hok : e.fgets d.tick = none) (hrest : (d.content.getD []).drop st.pos = [])
    (hsize : 1 < size) :
    fgets e size buf st d = (false, buf, { st with eof := true }, d.record d.content) := by
  have hline : takeLine (size - 1) [] = [] := by cases size - 1 <;> rfl
  have hroom : 0 < size - 1 := by omega
  simp [fgets, hok, hrest, hline, hroom]

/-- What is left to read. -/
def Stream.unread (st : Stream) (d : Disk) : Bytes := (d.content.getD []).drop st.pos

/-- A read has found the end of the file or taken a byte at least. -/
structure Stream.Advances (d : Disk) (st st' : Stream) : Prop where
  ended : st.eof = true → st'.eof = true
  forward : (st'.unread d).length ≤ (st.unread d).length
  taken : st'.eof = true ∨ (st'.unread d).length < (st.unread d).length

theorem Stream.Advances.trans {d : Disk} {st st' st'' : Stream} (h : st.Advances d st')
    (h' : st'.Advances d st'') : st.Advances d st'' := by
  refine ⟨fun heof => h'.ended (h.ended heof), h'.forward.trans h.forward, ?_⟩
  rcases h'.taken with heof | hlt
  · exact .inl heof
  · exact .inr (Nat.lt_of_lt_of_le hlt h.forward)

theorem takeLine_ne_nil {n : Nat} {rest : Bytes} (hn : n ≠ 0) (hrest : rest ≠ []) :
    takeLine n rest ≠ [] := by
  obtain ⟨c, rest, rfl⟩ := List.exists_cons_of_ne_nil hrest
  obtain ⟨n, rfl⟩ := Nat.exists_eq_succ_of_ne_zero hn
  unfold takeLine
  split <;> exact List.cons_ne_nil _ _

theorem fgets_advances {e : FileEnv} {size : Nat} (buf : Bytes) (st : Stream) {d : Disk}
    (hok : e.fgets d.tick = none) (hsize : 1 < size) :
    st.Advances d (fgets e size buf st d).2.2.1 ∧
      (fgets e size buf st d).2.2.2.content = d.content := by
  by_cases hrest : (d.content.getD []).drop st.pos = []
  · rw [fgets_end buf hok hrest hsize]
    exact ⟨⟨fun _ => rfl, Nat.le_refl _, .inl rfl⟩, rfl⟩
  · have hline := takeLine_ne_nil (show size - 1 ≠ 0 by omega) hrest
    have hpos := List.length_pos_of_ne_nil hline
    have hleft := List.length_pos_of_ne_nil hrest
    simp only [fgets, hok, hline, if_false]
    refine ⟨⟨fun heof => by simp [heof], ?_, .inr ?_⟩, rfl⟩
    all_goals
      simp only [Stream.unread, List.length_drop] at hleft ⊢
      omega

end CLib
