import Neb2Amqp.Fifo.Loading

/-!
# Reloading a saved queue

`n2a_load` reads back what `n2a_csync` wrote. Its loop asks for the end of the
file before anything has tried to read past it, so one round too many runs: it
queues the last event once more, with the last byte of both texts cut off.
-/

namespace Neb2Amqp

open CLib
open BoundedDeque (roomBehind)

/-- A text of one line that fits the array it is read into. -/
structure OneLine (s : CString) : Prop where
  nonempty : s.bytes ≠ []
  noNewline : (10 : UInt8) ∉ s.bytes
  fits : s.bytes.length ≤ eventMsgMaxSize - 2

structure Event.Storable (ev : Event) : Prop where
  rk : OneLine ev.rk
  msg : OneLine ev.msg

theorem Event.Storable.unbroken {ev : Event} (h : ev.Storable) : ev.Unbroken :=
  ⟨h.rk.noNewline, h.msg.noNewline⟩

theorem Event.Storable.fits {ev : Event} (h : ev.Storable) : ev.Fits := ⟨h.rk.fits, h.msg.fits⟩

/-! ## The arrays -/

theorem takeWhile_line {line rest : Bytes} (h : (0 : UInt8) ∉ line) :
    (line ++ 0 :: rest).takeWhile (· != 0) = line := by
  rw [List.takeWhile_append_of_pos, List.takeWhile_cons_of_neg (by simp), List.append_nil]
  intro c hc
  have hne : c ≠ 0 := fun h0 => h (h0 ▸ hc)
  simpa using hne

/-- Stripping takes the last byte of the text away, whatever it is. -/
theorem ofBytes_stripLast (buf : Bytes) :
    (CString.ofBytes (stripLast buf)).bytes = (CString.ofBytes buf).bytes.dropLast := by
  have hnul : (0 : UInt8) ∉ buf.takeWhile (· != 0) := (CString.ofBytes buf).nulFree
  rcases List.eq_nil_or_concat (buf.takeWhile (· != 0)) with hempty | ⟨init, last, htext⟩
  · have hsame : stripLast buf = buf := by simp [stripLast, arrayStrlen, hempty]
    change (stripLast buf).takeWhile (· != 0) = (buf.takeWhile (· != 0)).dropLast
    rw [hsame, hempty]
    rfl
  · rw [List.concat_eq_append] at htext
    have hbuf : buf = init ++ last :: buf.dropWhile (· != 0) := by
      conv => lhs; rw [← List.takeWhile_append_dropWhile (p := (· != 0)) (l := buf), htext]
      simp
    have hstrip : stripLast buf = init ++ 0 :: buf.dropWhile (· != 0) := by
      have hlen : arrayStrlen buf = init.length + 1 := by
        rw [arrayStrlen, htext, List.length_append, List.length_singleton]
      have hset : buf.set init.length 0 = init ++ 0 :: buf.dropWhile (· != 0) := by
        conv => lhs; rw [hbuf, List.set_append_right _ _ (Nat.le_refl _), Nat.sub_self,
          List.set_cons_zero]
      rw [stripLast, hlen, if_neg (Nat.succ_ne_zero _), Nat.add_sub_cancel, hset]
    have hinit : (0 : UInt8) ∉ init := fun h => hnul (by rw [htext]; exact List.mem_append_left _ h)
    change (stripLast buf).takeWhile (· != 0) = (buf.takeWhile (· != 0)).dropLast
    rw [hstrip, takeWhile_line hinit, htext, List.dropLast_concat]

theorem ofBytes_stripLast_line (s : CString) (buf : Bytes) :
    CString.ofBytes (stripLast (overwrite buf 0 (s.bytes ++ [10, 0]))) = s := by
  have hline : (0 : UInt8) ∉ s.bytes ++ [10] := by simpa using s.nulFree
  have hread : (CString.ofBytes (overwrite buf 0 (s.bytes ++ [10, 0]))).bytes =
      s.bytes ++ [10] := by
    have hsplit : overwrite buf 0 (s.bytes ++ [10, 0]) =
        (s.bytes ++ [10]) ++ 0 :: buf.drop (s.bytes ++ [10, 0]).length := by
      rw [overwrite_zero]
      simp
    rw [hsplit]
    exact takeWhile_line hline
  apply CString.ext
  rw [ofBytes_stripLast, hread, List.dropLast_concat]

/-! ## The loop -/

/-- In front of `rest`, having queued `p`; the array still holds the last key. -/
structure Reading (s : LoadState) (p : List Event) (rest : Bytes) (st : Stream) : Prop where
  stream : s.fifo.pFile = some st
  more : st.eof = false
  position : (s.fifo.disk.content.getD []).drop st.pos = rest
  carries : s.fifo.Carries p
  lastKey : ∀ ev, p.getLast? = some ev → CString.ofBytes s.rk = ev.rk

theorem loadStep_of_reads {e : FileEnv} (m : Malloc EventNode) {s : LoadState} {p : List Event}
    {st st' st'' : Stream} {gotRk gotMsg : Bool} {rk msg : Bytes} {d d' : Disk}
    (hcarries : s.fifo.Carries p) (hpos : 0 < s.fifo.maxSize.toNat)
    (hrk : fgets e eventMsgMaxSize s.rk st s.fifo.disk = (gotRk, rk, st', d))
    (hmsg : fgets e eventMsgMaxSize s.msg st' d = (gotMsg, msg, st'', d')) :
    (loadStep e m st s).fifo.Carries (roomBehind s.fifo.maxSize.toNat p ++
        [⟨.ofBytes (stripLast rk), .ofBytes (stripLast msg)⟩]) ∧
      (loadStep e m st s).fifo.maxSize = s.fifo.maxSize ∧
      (loadStep e m st s).fifo.pFile = some st'' ∧ (loadStep e m st s).fifo.disk = d' ∧
      (loadStep e m st s).rk = stripLast rk := by
  simp only [loadStep, hrk, hmsg]
  have hsame := enqueue_sameFile m { s.fifo with pFile := some st'', disk := d' }
    ⟨.ofBytes (stripLast rk), .ofBytes (stripLast msg)⟩
  have hread : { s.fifo with pFile := some st'', disk := d' : Fifo }.Carries p :=
    hcarries.of_same rfl rfl rfl rfl rfl
  exact ⟨enqueue_carries hread hpos m _, hsame.maxSize, hsame.pFile, hsame.disk, trivial⟩

section

variable {e : FileEnv} (he : e.AllSucceed) (m : Malloc EventNode)

include he

theorem loadStep_event {s : LoadState} {p : List Event} {ev : Event} {rest : Bytes} {st : Stream}
    (h : Reading s p (ev.record ++ rest) st) (hev : ev.Storable)
    (hroom : p.length < s.fifo.maxSize.toNat) :
    (loadStep e m st s).fifo.maxSize = s.fifo.maxSize ∧
      ∃ st', Reading (loadStep e m st s) (p ++ [ev]) rest st' := by
  obtain ⟨hrk, hmsg, hend⟩ := fgets_record he s.rk s.msg h.position hev.unbroken hev.fits
  obtain ⟨hcarries, hmax, hstream, hdisk, hkey⟩ := loadStep_of_reads m h.carries
    (Nat.lt_of_le_of_lt (Nat.zero_le _) hroom) hrk hmsg
  rw [ofBytes_stripLast_line, ofBytes_stripLast_line, roomBehind, if_pos hroom] at hcarries
  refine ⟨hmax, _, hstream, h.more, ?_, hcarries, fun ev' hlast => ?_⟩
  · rw [hdisk]
    exact hend
  · rw [List.getLast?_append, List.getLast?_singleton, Option.some_or, Option.some.injEq] at hlast
    rw [hkey, ofBytes_stripLast_line, hlast]

/-- The round at the end of the file queues the last event again, shortened. -/
theorem loadStep_end {s : LoadState} {p : List Event} {st : Stream} (h : Reading s p [] st)
    (hpos : 0 < s.fifo.maxSize.toNat) :
    (∃ st', (loadStep e m st s).fifo.pFile = some st' ∧ st'.eof = true) ∧
      ∃ extra : Event,
        (loadStep e m st s).fifo.Carries (roomBehind s.fifo.maxSize.toNat p ++ [extra]) ∧
        ∀ ev, p.getLast? = some ev → extra.rk.bytes = ev.rk.bytes.dropLast := by
  have hsize : 1 < eventMsgMaxSize := by decide
  obtain ⟨hcarries, -, hstream, -, -⟩ := loadStep_of_reads m h.carries hpos
    (fgets_end _ (he.fgets _) h.position hsize)
    (fgets_end _ (he.fgets _) h.position hsize)
  refine ⟨⟨_, hstream, rfl⟩, _, hcarries, fun ev hlast => ?_⟩
  rw [ofBytes_stripLast, h.lastKey ev hlast]

/-- The whole loop over a stored queue. -/
theorem loadLoop_serialize (q : List Event) {s : LoadState} {p : List Event} {st : Stream}
    (h : Reading s p (serialize q) st) (hq : ∀ ev ∈ q, ev.Storable)
    (hpos : 0 < s.fifo.maxSize.toNat) (hfit : (p ++ q).length ≤ s.fifo.maxSize.toNat) :
    ∃ s', (∀ fuel ≥ q.length + 2, loadLoop e m fuel s = some s') ∧
      ∃ extra : Event,
        s'.fifo.Carries (roomBehind s.fifo.maxSize.toNat (p ++ q) ++ [extra]) ∧
        ∀ ev, (p ++ q).getLast? = some ev → extra.rk.bytes = ev.rk.bytes.dropLast := by
  induction q generalizing s p st with
  | nil =>
      obtain ⟨⟨st', hst', heof⟩, extra, hcarries, hlast⟩ := loadStep_end he m h hpos
      refine ⟨loadStep e m st s, fun fuel hfuel => ?_, extra, ?_⟩
      · obtain ⟨n, rfl⟩ : ∃ n, fuel = n + 2 := ⟨fuel - 2, by simp at hfuel; omega⟩
        simp only [loadLoop, h.stream, h.more, hst', heof, if_true]
        rfl
      · rw [List.append_nil]
        exact ⟨hcarries, hlast⟩
  | cons ev q ih =>
      have hroom : p.length < s.fifo.maxSize.toNat := by
        rw [List.length_append, List.length_cons] at hfit
        omega
      have hread : Reading s p (ev.record ++ serialize q) st := h
      obtain ⟨hmax, st', hnext⟩ := loadStep_event he m hread (hq ev List.mem_cons_self) hroom
      have happend : p ++ ev :: q = p ++ [ev] ++ q := by simp
      obtain ⟨s', hloop, hend⟩ := ih hnext (fun x hx => hq x (List.mem_cons_of_mem _ hx))
        (by rw [hmax]; exact hpos) (by rw [hmax, ← happend]; exact hfit)
      rw [hmax, ← happend] at hend
      refine ⟨s', fun fuel hfuel => ?_, hend⟩
      obtain ⟨n, rfl⟩ : ∃ n, fuel = n + 1 := ⟨fuel - 1, by simp at hfuel; omega⟩
      have hrun : loadLoop e m n (loadStep e m st s) = some s' := by
        apply hloop n
        rw [List.length_cons] at hfuel
        omega
      simp only [loadLoop, h.stream, h.more]
      exact hrun

end

theorem n2aFifoInit_serialize {e : FileEnv} (he : e.AllSucceed) (m : Malloc EventNode)
    (stack : Bytes × Bytes) {maxSize : Int32} (hpos : 0 < maxSize.toUInt32.toNat) {disk : Disk}
    {q : List Event} (hdisk : disk.content = some (serialize q)) (hq : ∀ ev ∈ q, ev.Storable)
    (hfit : q.length ≤ maxSize.toUInt32.toNat) :
    ∃ f, (∀ fuel ≥ q.length + 2, n2aFifoInit e m stack fuel maxSize disk = some f) ∧
      ∃ extra : Event, f.Carries (roomBehind maxSize.toUInt32.toNat q ++ [extra]) ∧
        ∀ ev, q.getLast? = some ev → extra.rk.bytes = ev.rk.bytes.dropLast := by
  have hread : Reading (LoadState.start maxSize.toUInt32 stack disk) [] (serialize q) Stream.start :=
    ⟨rfl, rfl, congrArg (fun content : Option Bytes => content.getD []) hdisk,
      (Fifo.created_carries _ disk).of_same rfl rfl rfl rfl rfl, fun ev hlast => absurd hlast (by simp)⟩
  obtain ⟨s', hloop, extra, hcarries, hlast⟩ := loadLoop_serialize he m q hread hq hpos hfit
  refine ⟨(s'.finish e).fifo, fun fuel hfuel => ?_, extra, ?_, hlast⟩
  · rw [n2aFifoInit, n2aLoad_of_content he stack fuel _ hdisk, hloop fuel hfuel]
    rfl
  · exact LoadState.finish_carries e hcarries

/-! ## The round trip -/

/-- The reloaded queue is the saved one. -/
def Reloads (q : List Event) (f : Fifo) : Prop := f.events = q ∧ f.size.toNat = q.length

instance (q : List Event) (f : Fifo) : Decidable (Reloads q f) :=
  inferInstanceAs (Decidable (_ ∧ _))

theorem not_reloads_of_extra {f : Fifo} {cap : Nat} {q : List Event} {extra : Event}
    (hcarries : f.Carries (roomBehind cap q ++ [extra])) (hq : ∀ ev ∈ q, ev.Storable)
    (hlast : ∀ ev, q.getLast? = some ev → extra.rk.bytes = ev.rk.bytes.dropLast) :
    ¬ Reloads q f := by
  rintro ⟨hevents, -⟩
  rw [hcarries.events_eq] at hevents
  have hextra : q.getLast? = some extra := by
    rw [← hevents, List.getLast?_append, List.getLast?_singleton, Option.some_or]
  have hne := (hq extra (List.mem_of_getLast? hextra)).rk.nonempty
  have hlen := congrArg List.length (hlast extra hextra)
  have hpos := List.length_pos_of_ne_nil hne
  rw [List.length_dropLast] at hlen
  omega

/-- No queue survives being saved and loaded, whatever it holds. -/
theorem reload_differs (e : FileEnv) (he : e.AllSucceed) (m : Malloc EventNode)
    (stack : Bytes × Bytes) (maxSize : Int32) (hpos : 0 < maxSize.toInt) (f : Fifo)
    (q : List Event) (hq : ∀ ev ∈ q, ev.Storable) (hcarries : f.Carries q)
    (hmax : f.maxSize = maxSize.toUInt32) (hdirty : f.dirty = true) (hlock : f.fileLock = false) :
    ∃ g, (∀ fuel ≥ q.length + 2,
        n2aFifoInit e m stack fuel maxSize (n2aCsync e f).2.disk = some g) ∧
      ¬ Reloads q g := by
  have hdisk := n2aCsync_of_allSucceed he hdirty hlock
  rw [hcarries.events_eq] at hdisk
  have hfit : q.length ≤ maxSize.toUInt32.toNat := hmax ▸ hcarries.length_le
  have hcap : 0 < maxSize.toUInt32.toNat := by
    rw [Int32.toNat_toUInt32_of_le (Int32.le_iff_toInt_le.mpr (Int.le_of_lt hpos)),
      ← Int32.toNat_toInt]
    omega
  obtain ⟨g, hinit, extra, hg, hlast⟩ := n2aFifoInit_serialize he m stack hcap hdisk hq hfit
  exact ⟨g, hinit, not_reloads_of_extra hg hq hlast⟩

theorem reload_differs_oneUnsaved :
    ∃ g, (∀ fuel ≥ 3, n2aFifoInit .reliable Heap.bump ([], []) fuel 5
        (n2aCsync .reliable Fifo.oneUnsaved).2.disk = some g) ∧
      ¬ Reloads [⟨.lit "a", .lit "b"⟩] g := by
  have hline : ∀ s ∈ [CString.lit "a", CString.lit "b"], OneLine s := by
    intro s hs
    simp only [List.mem_cons, List.not_mem_nil, or_false] at hs
    rcases hs with rfl | rfl <;> exact ⟨by decide, by decide, by decide⟩
  refine reload_differs .reliable FileEnv.reliable_allSucceed Heap.bump ([], []) 5 (by decide)
    Fifo.oneUnsaved [⟨.lit "a", .lit "b"⟩] ?_ ?_ rfl rfl rfl
  · intro ev hev
    rw [List.mem_singleton.mp hev]
    exact ⟨hline _ (by simp), hline _ (by simp)⟩
  · exact enqueue_carries (Fifo.created_carries _ _) (by decide) Heap.bump _

/-- One event saved, two loaded. -/
theorem oneUnsaved_reloads_two :
    (n2aFifoInit .reliable Heap.bump ([], []) 3 5
        (n2aCsync .reliable Fifo.oneUnsaved).2.disk).map (·.events) =
      some [⟨.lit "a", .lit "b"⟩, ⟨.lit "", .lit ""⟩] ∧
    ¬ Reloads Fifo.oneUnsaved.events ((n2aFifoInit .reliable Heap.bump ([], []) 3 5
        (n2aCsync .reliable Fifo.oneUnsaved).2.disk).get (by decide +kernel)) :=
  ⟨by decide +kernel, by decide +kernel⟩

end Neb2Amqp
