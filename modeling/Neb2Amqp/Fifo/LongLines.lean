import Neb2Amqp.Fifo.Loading
import Neb2Amqp.Fifo.RoundTrip

/-!
# Records longer than the arrays of the reader

`n2a_csync` writes lines of any length, `n2a_load` reads them into arrays of
`EVENT_MSG_MAX_SIZE` bytes and takes the last byte off whatever it got.
-/

namespace Neb2Amqp

open CLib

theorem ofBytes_stripLast_cut (buf : Bytes) {s : CString} {n : Nat} (hlong : n ≤ s.strlen) :
    (CString.ofBytes (stripLast (overwrite buf 0 (s.bytes.take n ++ [0])))).strlen = n - 1 := by
  have hnul : (0 : UInt8) ∉ s.bytes.take n := fun h => s.nulFree (List.mem_of_mem_take h)
  have hread : (CString.ofBytes (overwrite buf 0 (s.bytes.take n ++ [0]))).bytes =
      s.bytes.take n := by
    have hsplit : overwrite buf 0 (s.bytes.take n ++ [0]) =
        s.bytes.take n ++ 0 :: buf.drop (s.bytes.take n ++ [0]).length := by
      rw [overwrite_zero]
      simp
    rw [hsplit]
    exact takeWhile_line hnul
  rw [CString.strlen, ofBytes_stripLast, hread, List.length_dropLast, List.length_take_of_le hlong]

/-- The reader stands in front of `rest`. -/
structure LoadState.Before (s : LoadState) (rest : Bytes) (st : Stream) : Prop where
  stream : s.fifo.pFile = some st
  more : st.eof = false
  position : st.unread s.fifo.disk = rest

section
variable {e : FileEnv} (he : e.AllSucceed) (m : Malloc EventNode)
include he

theorem loadStep_of_fits {s : LoadState} {ev : Event} {rest : Bytes} {st : Stream}
    (h : s.Before (ev.record ++ rest) st) (hev : ev.Unbroken) (hfits : ev.Fits) :
    (loadStep e m st s).pushed = s.pushed ++ [ev] ∧
      ∃ st', (loadStep e m st s).Before rest st' := by
  obtain ⟨hrk, hmsg, hrest⟩ := fgets_record he s.rk s.msg h.position hev hfits
  have hpushed := loadStep_pushed (m := m) hrk hmsg
  rw [ofBytes_stripLast_line, ofBytes_stripLast_line] at hpushed
  obtain ⟨hstream, hdisk⟩ := loadStep_file (m := m) hrk hmsg
  refine ⟨hpushed, _, hstream, h.more, ?_⟩
  rw [hdisk]
  exact hrest

/-- In front of any other it queues something else. -/
theorem loadStep_of_not_fits {s : LoadState} {ev : Event} {rest : Bytes} {st : Stream}
    (h : s.Before (ev.record ++ rest) st) (hev : ev.Unbroken) (hlong : ¬ ev.Fits) :
    ∃ ev', (loadStep e m st s).pushed = s.pushed ++ [ev'] ∧ ev' ≠ ev := by
  have hsize : 1 < eventMsgMaxSize := by decide
  have hroom : eventMsgMaxSize - 1 - 1 = eventMsgMaxSize - 2 := rfl
  have hkey : st.unread s.fifo.disk = ev.rk.bytes ++ 10 :: (ev.msg.bytes ++ 10 :: rest) := by
    rw [h.position, Event.record_append]
  by_cases hrk : ev.rk.strlen ≤ eventMsgMaxSize - 2
  · have hmsg : eventMsgMaxSize - 1 ≤ ev.msg.strlen := by
      have hnot : ¬ ev.msg.strlen ≤ eventMsgMaxSize - 2 := fun hmsg => hlong ⟨hrk, hmsg⟩
      omega
    obtain ⟨hread, hnext⟩ := fgets_unread_line he s.rk hkey hev.rk hrk
    have hcut := fgets_cut s.msg (he.fgets _) hnext hev.msg hmsg hsize
    refine ⟨_, loadStep_pushed hread hcut, fun heq => ?_⟩
    have hlength := congrArg (fun ev : Event => ev.msg.strlen) heq
    simp only [ofBytes_stripLast_cut s.msg hmsg] at hlength
    omega
  · have hcut := fgets_cut s.rk (he.fgets _) hkey hev.rk
      (show eventMsgMaxSize - 1 ≤ ev.rk.strlen by omega) hsize
    refine ⟨_, loadStep_pushed hcut rfl, fun heq => ?_⟩
    have hlength := congrArg (fun ev : Event => ev.rk.strlen) heq
    simp only [ofBytes_stripLast_cut s.rk (show eventMsgMaxSize - 1 ≤ ev.rk.strlen by omega)]
      at hlength
    omega

theorem loadLoop_pushed_iff (q : List Event) {fuel : Nat} {s s' : LoadState} {st : Stream}
    (h : s.Before (serialize q) st) (hq : ∀ ev ∈ q, ev.Unbroken)
    (hrun : loadLoop e m fuel s = some s') :
    s.pushed ++ q <+: s'.pushed ↔ ∀ ev ∈ q, ev.Fits := by
  induction q generalizing fuel s st with
  | nil =>
      rw [List.append_nil]
      exact iff_of_true (loadLoop_pushed hrun) (by simp)
  | cons ev q ih =>
      obtain ⟨hev, hrest⟩ := List.forall_mem_cons.mp hq
      have hfront : s.Before (ev.record ++ serialize q) st := h
      cases fuel with
      | zero => cases hrun
      | succ fuel =>
          rw [loadLoop_step h.stream h.more] at hrun
          rw [List.forall_mem_cons]
          by_cases hfits : ev.Fits
          · obtain ⟨hpushed, st', hnext⟩ := loadStep_of_fits he m hfront hev hfits
            have hlater := ih hnext hrest hrun
            rw [hpushed, List.append_assoc, List.singleton_append] at hlater
            simp only [hfits, true_and]
            exact hlater
          · obtain ⟨ev', hpushed, hne⟩ := loadStep_of_not_fits he m hfront hev hfits
            apply iff_of_false _ fun hall => hfits hall.1
            intro hprefix
            have hother : s.pushed ++ [ev'] <+: s'.pushed := hpushed ▸ loadLoop_pushed hrun
            have hown : s.pushed ++ [ev] <+: s'.pushed := by
              apply List.IsPrefix.trans _ hprefix
              exact ⟨q, by simp⟩
            have hsame := (List.prefix_of_prefix_length_le hother hown (by simp)).eq_of_length
              (by simp)
            exact hne (List.singleton_inj.mp (List.append_cancel_left hsame))

end

/-! ## Saving and loading -/

/-- What `n2a_load` queues first when it reads a stored queue is that queue, exactly
if every record of it fits. -/
theorem n2aLoad_pushed_iff {e : FileEnv} (he : e.AllSucceed) (m : Malloc EventNode)
    (stack : Bytes × Bytes) (maxSize : UInt32) {disk : Disk} {q : List Event}
    (hdisk : disk.content = some (serialize q)) (hq : ∀ ev ∈ q, ev.Unbroken) :
    ∃ s, (∀ fuel ≥ (serialize q).length + 2,
        n2aLoad e m stack fuel (Fifo.created maxSize disk) = some s) ∧
      (s.pushed.take q.length = q ↔ ∀ ev ∈ q, ev.Fits) := by
  have hfront : (LoadState.start maxSize stack disk).Before (serialize q) Stream.start :=
    ⟨rfl, rfl, congrArg (fun content : Option Bytes => content.getD []) hdisk⟩
  have hleft : (Stream.start.unread (LoadState.start maxSize stack disk).fifo.disk).length ≤
      (serialize q).length := le_of_eq (congrArg List.length hfront.position)
  obtain ⟨s', hloop⟩ := loadLoop_ends (m := m) he _ hfront.stream hleft
  have hiff := loadLoop_pushed_iff he m q hfront hq (hloop _ (Nat.le_refl _))
  rw [← hiff, List.prefix_iff_eq_take, eq_comm]
  refine ⟨s'.finish e, fun fuel hfuel => ?_, Iff.rfl⟩
  rw [n2aLoad_of_content he stack fuel maxSize hdisk, hloop fuel hfuel]
  rfl

/-- The events of a saved queue are the first that loading its file queues, exactly if
no text is longer than `EVENT_MSG_MAX_SIZE - 2` bytes. -/
theorem reload_pushes_iff (e : FileEnv) (he : e.AllSucceed) (m : Malloc EventNode)
    (stack : Bytes × Bytes) (maxSize : Int32) (f : Fifo) (q : List Event)
    (hq : ∀ ev ∈ q, ev.Unbroken) (hcarries : f.Carries q) (hdirty : f.dirty = true)
    (hlock : f.fileLock = false) :
    (∃ s, (∀ fuel ≥ (serialize q).length + 2, n2aLoad e m stack fuel
        (Fifo.created maxSize.toUInt32 (n2aCsync e f).2.disk) = some s) ∧
      s.pushed.take q.length = q) ↔ ∀ ev ∈ q, ev.Fits := by
  have hdisk := n2aCsync_of_allSucceed he hdirty hlock
  rw [hcarries.events_eq] at hdisk
  obtain ⟨s, hload, hiff⟩ := n2aLoad_pushed_iff he m stack maxSize.toUInt32 hdisk hq
  rw [← hiff]
  constructor
  · rintro ⟨s', hload', hpushed⟩
    have hsame := (hload _ (Nat.le_refl _)).symm.trans (hload' _ (Nat.le_refl _))
    exact Option.some.inj hsame ▸ hpushed
  · exact fun hpushed => ⟨s, hload, hpushed⟩

/-- A message of this many bytes. -/
def messageOf (length : Nat) : Event :=
  ⟨.lit "a", ⟨List.replicate length 120, fun h => absurd (List.eq_of_mem_replicate h) (by decide)⟩⟩

theorem messageOf_unbroken (length : Nat) : (messageOf length).Unbroken :=
  ⟨show (10 : UInt8) ∉ (CString.lit "a").bytes by decide,
    fun h => absurd (List.eq_of_mem_replicate h) (by decide)⟩

theorem messageOf_fits {length : Nat} (h : length ≤ eventMsgMaxSize - 2) :
    (messageOf length).Fits := by
  refine ⟨show (CString.lit "a").strlen ≤ eventMsgMaxSize - 2 by decide, ?_⟩
  have hlength : (messageOf length).msg.strlen = length := List.length_replicate
  exact hlength.trans_le h

/-- An empty message, the longest that fits, and one behind it. -/
def fittingMessages : List Event := [messageOf 0, messageOf 8190, messageOf 3]

theorem reload_pushes_iff_fittingMessages :
    ∃ s, (∀ fuel ≥ (serialize fittingMessages).length + 2,
        n2aLoad .reliable Heap.bump ([], []) fuel (Fifo.created 5 (n2aCsync .reliable
          (Fifo.filled Heap.bump 5 ⟨none, []⟩ fittingMessages)).2.disk) = some s) ∧
      s.pushed.take fittingMessages.length = fittingMessages := by
  refine (reload_pushes_iff .reliable FileEnv.reliable_allSucceed Heap.bump ([], []) 5
    (Fifo.filled Heap.bump 5 ⟨none, []⟩ fittingMessages) fittingMessages ?_
    (Fifo.filled_carries _ _ (by decide)) rfl rfl).mpr ?_
  · intro ev hev
    simp only [fittingMessages, List.mem_cons, List.not_mem_nil, or_false] at hev
    rcases hev with rfl | rfl | rfl <;> exact messageOf_unbroken _
  · intro ev hev
    simp only [fittingMessages, List.mem_cons, List.not_mem_nil, or_false] at hev
    rcases hev with rfl | rfl | rfl <;> exact messageOf_fits (by decide)

/-- A message of 8191 bytes comes back one byte shorter. -/
theorem longMessage_cut : (messageOf 8191).Unbroken ∧
    ∃ s, (∀ fuel ≥ (serialize [messageOf 8191]).length + 2, n2aLoad .reliable Heap.bump ([], []) fuel
        (Fifo.created 5 (n2aCsync .reliable
          (Fifo.filled Heap.bump 5 ⟨none, []⟩ [messageOf 8191])).2.disk) = some s) ∧
      s.pushed.take 1 ≠ [messageOf 8191] := by
  have hunbroken := messageOf_unbroken 8191
  have hdisk := n2aCsync_of_allSucceed FileEnv.reliable_allSucceed
    (f := Fifo.filled Heap.bump 5 ⟨none, []⟩ [messageOf 8191]) rfl rfl
  have hcarries : (Fifo.filled Heap.bump 5 ⟨none, []⟩ [messageOf 8191]).Carries [messageOf 8191] :=
    Fifo.filled_carries Heap.bump ⟨none, []⟩ (by decide)
  rw [hcarries.events_eq] at hdisk
  obtain ⟨s, hload, hiff⟩ := n2aLoad_pushed_iff FileEnv.reliable_allSucceed Heap.bump ([], []) 5
    hdisk (List.forall_mem_singleton.mpr hunbroken)
  refine ⟨hunbroken, s, hload, fun hpushed => ?_⟩
  have hfits := hiff.mp hpushed (messageOf 8191) List.mem_cons_self
  have hlength : (messageOf 8191).msg.strlen = 8191 := List.length_replicate
  have hroom : eventMsgMaxSize - 2 = 8190 := rfl
  have hmsg := hfits.msg
  omega

end Neb2Amqp
