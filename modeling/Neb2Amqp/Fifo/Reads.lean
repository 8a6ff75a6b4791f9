import Mathlib.Algebra.Group.Nat.Even
import Neb2Amqp.Fifo.Loading
import Neb2Amqp.Library.Lines

/-!
# The reads of n2a_load

The loop is left only when a read has met the end of the file, and it uses both of
its arrays whatever `fgets` returned. So whether it ends, and whether the arrays hold
a line when they are used, depends on how the file ends and on the reads that fail.
-/

namespace Neb2Amqp

open CLib

/-- What `fgets` puts into an array of `n2a_load` beside the terminator. -/
def lineRoom : Nat := eventMsgMaxSize - 1

theorem lineRoom_ne_zero : lineRoom ≠ 0 := by decide

/-! ## Opening -/

/-- The file as `n2a_load` reads it, if it could be opened in one of the two modes. -/
def openedDisk (e : FileEnv) (disk : Disk) : Option Disk :=
  if e.fopen disk.tick = true ∧ disk.content.isSome then some (disk.record disk.content)
  else if e.fopen (disk.tick + 1) then some ((disk.record disk.content).record (some []))
  else none

/-- Where the loop starts on it. -/
def LoadState.opened (maxSize : UInt32) (stack : Bytes × Bytes) (d : Disk) : LoadState where
  fifo := { Fifo.created maxSize d with pFile := some Stream.start, fileLock := true }
  rk := stack.1
  msg := stack.2
  i := 0
  reads := []

/-- The first `n` rounds of the loop, or fewer if it is left before. -/
def loadRounds (e : FileEnv) (m : Malloc EventNode) : Nat → LoadState → LoadState
  | 0, s => s
  | n + 1, s =>
      match s.fifo.pFile with
      | none => s
      | some st => if st.eof then s else loadRounds e m n (loadStep e m st s)

/-- What the first `n` rounds of `n2a_load` had in the arrays when they used them. -/
def n2aLoadReads (e : FileEnv) (m : Malloc EventNode) (stack : Bytes × Bytes) (n : Nat)
    (f : Fifo) : List ReadPair :=
  if f.fileLock then []
  else
    let (opened, f) := n2aFifoOpenFile e f
    if opened = 0 then []
    else
      let f := { f with fileLock := true, pFile := f.pFile.map Stream.rewind }
      (loadRounds e m n ⟨f, stack.1, stack.2, 0, []⟩).reads

section
variable {e : FileEnv} {m : Malloc EventNode}

theorem loadLoop_rounds {fuel : Nat} {s s' : LoadState} (h : loadLoop e m fuel s = some s') :
    loadRounds e m fuel s = s' := by
  induction fuel generalizing s with
  | zero => cases h
  | succ fuel ih =>
      unfold loadLoop at h
      unfold loadRounds
      cases hst : s.fifo.pFile with
      | none =>
          rw [hst] at h
          exact Option.some.inj h
      | some st =>
          simp only [hst] at h
          cases heof : st.eof with
          | true =>
              rw [heof, if_pos rfl] at h
              simp only [heof, if_true]
              exact Option.some.inj h
          | false =>
              rw [heof, if_neg Bool.false_ne_true] at h
              simp only [heof, Bool.false_eq_true, if_false]
              exact ih h

/-- When it returns, these are all its reads. -/
theorem n2aLoad_reads {stack : Bytes × Bytes} {fuel : Nat} {f : Fifo} {s : LoadState}
    (h : n2aLoad e m stack fuel f = some s) : n2aLoadReads e m stack fuel f = s.reads := by
  unfold n2aLoad at h
  unfold n2aLoadReads
  by_cases hlocked : f.fileLock = true
  · rw [if_pos hlocked] at h ⊢
    cases h
    rfl
  · rw [if_neg hlocked] at h ⊢
    dsimp only at h ⊢
    by_cases hopen : (n2aFifoOpenFile e f).1 = 0
    · rw [if_pos hopen] at h ⊢
      cases h
      rfl
    · rw [if_neg hopen] at h ⊢
      obtain ⟨t, ht, rfl⟩ := Option.map_eq_some_iff.mp h
      rw [loadLoop_rounds ht]
      rfl

theorem n2aLoad_cases (e : FileEnv) (m : Malloc EventNode) (stack : Bytes × Bytes)
    (maxSize : UInt32) (disk : Disk) :
    (openedDisk e disk = none ∧ ∀ n, n2aLoadReads e m stack n (.created maxSize disk) = [] ∧
      (n2aLoad e m stack n (.created maxSize disk)).isSome) ∨
    (∃ d, openedDisk e disk = some d ∧ ∀ n,
      n2aLoadReads e m stack n (.created maxSize disk) =
        (loadRounds e m n (.opened maxSize stack d)).reads ∧
      n2aLoad e m stack n (.created maxSize disk) =
        (loadLoop e m n (.opened maxSize stack d)).map (·.finish e)) := by
  unfold openedDisk n2aLoadReads n2aLoad
  rcases n2aFifoOpenFile_cases e (f := Fifo.created maxSize disk) rfl with
    ⟨old, hold, hr, hopen⟩ | ⟨hr, hw, hopen⟩ | ⟨hr, hw, hopen⟩
  all_goals
    simp only [hopen]
    simp only [Fifo.created] at hr
  · simp only [Fifo.created] at hold
    right
    exact ⟨disk.record (some old), by simp [hr, hold], fun n => ⟨rfl, rfl⟩⟩
  · simp only [Fifo.created] at hw
    right
    exact ⟨_, by rw [if_neg hr, if_pos hw], fun n => ⟨rfl, rfl⟩⟩
  · simp only [Fifo.created] at hw
    left
    exact ⟨by simp [hr, hw], fun n => ⟨rfl, rfl⟩⟩

/-! ## The two reads of a round -/

/-- One after the other, from the file as the last round left it. -/
structure LoadState.Round (e : FileEnv) (st : Stream) (s s' : LoadState) (r : ReadPair)
    (st₁ : Stream) (d₁ : Disk) (st₂ : Stream) : Prop where
  first : fgets e eventMsgMaxSize s.rk st s.fifo.disk = (r.gotRk, r.rk, st₁, d₁)
  second : fgets e eventMsgMaxSize s.msg st₁ d₁ = (r.gotMsg, r.msg, st₂, s'.fifo.disk)
  reads : s'.reads = s.reads ++ [r]
  stream : s'.fifo.pFile = some st₂
  between : d₁.tick = s.fifo.disk.tick + 1
  tick : s'.fifo.disk.tick = s.fifo.disk.tick + 2

theorem loadStep_round (st : Stream) (s : LoadState) :
    ∃ r st₁ d₁ st₂, s.Round e st (loadStep e m st s) r st₁ d₁ st₂ := by
  have hdisk := fgets_disk e eventMsgMaxSize s.rk st s.fifo.disk
  generalize hfirst : fgets e eventMsgMaxSize s.rk st s.fifo.disk = first at hdisk
  obtain ⟨gotRk, rk, st₁, d₁⟩ := first
  have hdisk' := fgets_disk e eventMsgMaxSize s.msg st₁ d₁
  generalize hsecond : fgets e eventMsgMaxSize s.msg st₁ d₁ = second at hdisk'
  obtain ⟨gotMsg, msg, st₂, d₂⟩ := second
  obtain ⟨hfile, hafter⟩ := loadStep_file (m := m) hfirst hsecond
  dsimp only at hdisk hdisk'
  have htick : d₁.tick = s.fifo.disk.tick + 1 := by rw [hdisk, Disk.record_tick]
  refine ⟨⟨rk, msg, gotRk, gotMsg⟩, st₁, d₁, st₂, hfirst, ?_, ?_, hfile, htick, ?_⟩
  · rw [hafter]
    exact hsecond
  · simp [loadStep, hfirst, hsecond]
  · rw [hafter, hdisk', Disk.record_tick, htick]

/-! ## Termination -/

theorem loadStep_readsLeft (st : Stream) (s : LoadState) :
    ∃ st', (loadStep e m st s).fifo.pFile = some st' ∧
      (loadStep e m st s).fifo.disk.tick = s.fifo.disk.tick + 2 ∧
      st'.readsLeft lineRoom (loadStep e m st s).fifo.disk =
        st.readsLeft lineRoom s.fifo.disk - e.goodReads s.fifo.disk.tick 2 := by
  have hsize : 1 < eventMsgMaxSize := by decide
  obtain ⟨r, st₁, d₁, st₂, hround⟩ := loadStep_round (e := e) (m := m) st s
  have hrk := fgets_readsLeft e s.rk st s.fifo.disk hsize
  have hmsg := fgets_readsLeft e s.msg st₁ d₁ hsize
  rw [hround.first] at hrk
  rw [hround.second, hround.between] at hmsg
  refine ⟨st₂, hround.stream, hround.tick, ?_⟩
  rw [lineRoom, hmsg, hrk, Nat.sub_sub, ← e.goodReads_add]

theorem loadLoop_isSome_iff {n : Nat} {s : LoadState} {st : Stream}
    (hst : s.fifo.pFile = some st) : (loadLoop e m (n + 1) s).isSome ↔
      st.readsLeft lineRoom s.fifo.disk ≤ e.goodReads s.fifo.disk.tick (2 * n) := by
  induction n generalizing s st with
  | zero =>
      have hend := st.readsLeft_eq_zero lineRoom_ne_zero (d := s.fifo.disk)
      rw [FileEnv.goodReads, Nat.le_zero, hend]
      cases heof : st.eof <;> simp [loadLoop, hst, heof]
  | succ n ih =>
      cases heof : st.eof with
      | true =>
          rw [(st.readsLeft_eq_zero lineRoom_ne_zero).mpr heof]
          simp [loadLoop, hst, heof]
      | false =>
          obtain ⟨st', hst', htick, hleft⟩ := loadStep_readsLeft (e := e) (m := m) st s
          rw [loadLoop_step hst heof, ih hst', hleft, htick, Nat.mul_succ, Nat.add_comm (2 * n),
            e.goodReads_add]
          omega

theorem loadLoop_ends_iff {s : LoadState} {st : Stream} (hst : s.fifo.pFile = some st) :
    (∃ fuel, (loadLoop e m fuel s).isSome) ↔
      ∃ n, st.readsLeft lineRoom s.fifo.disk ≤ e.goodReads s.fifo.disk.tick n := by
  constructor
  · rintro ⟨fuel, h⟩
    cases fuel with
    | zero => cases h
    | succ n => exact ⟨2 * n, (loadLoop_isSome_iff hst).mp h⟩
  · rintro ⟨n, h⟩
    have hmono := e.goodReads_mono s.fifo.disk.tick (show n ≤ 2 * n by omega)
    exact ⟨n + 1, (loadLoop_isSome_iff hst).mpr (h.trans hmono)⟩

end

/-! ## The arrays -/

/-- Both arrays hold a string of the file, and its last byte lies within the array. -/
structure ReadPair.Safe (r : ReadPair) : Prop where
  gotRk : r.gotRk = true
  gotMsg : r.gotMsg = true
  rk : Usable eventMsgMaxSize r.rk
  msg : Usable eventMsgMaxSize r.msg

/-- A text that is read in rounds of two pieces, up to its end and no further, while no
read fails. -/
structure ReadInPairs (e : FileEnv) (tick : Nat) (text : Bytes) : Prop where
  openEnd : OpenEnd lineRoom text
  even : Even (pieces lineRoom text).length
  noNul : ∀ piece ∈ pieces lineRoom text, piece.head? ≠ some 0
  good : ∀ i < (pieces lineRoom text).length, e.fgets (tick + i) = none

/-- The two reads of a round. -/
structure GoodRound (e : FileEnv) (tick : Nat) (text : Bytes) : Prop where
  goodRk : e.fgets tick = none
  goodMsg : e.fgets (tick + 1) = none
  rk : ∃ c, text.head? = some c ∧ c ≠ 0
  msg : ∃ c, (dropLine lineRoom text).head? = some c ∧ c ≠ 0

theorem exists_head_iff {text : Bytes} :
    (∃ c, text.head? = some c ∧ c ≠ 0) ↔ text ≠ [] ∧ text.head? ≠ some 0 := by
  cases text with
  | nil => simp
  | cons c rest => simp

theorem GoodRound.pieces {e : FileEnv} {tick : Nat} {text : Bytes} (h : GoodRound e tick text) :
    pieces lineRoom text = takeLine lineRoom text :: takeLine lineRoom (dropLine lineRoom text) ::
      CLib.pieces lineRoom (dropLine lineRoom (dropLine lineRoom text)) := by
  rw [pieces_cons lineRoom_ne_zero (exists_head_iff.mp h.rk).1,
    pieces_cons lineRoom_ne_zero (exists_head_iff.mp h.msg).1]

theorem ReadInPairs.goodRound {e : FileEnv} {tick : Nat} {text : Bytes}
    (h : ReadInPairs e tick text) : GoodRound e tick text := by
  have htext : text ≠ [] := by
    rintro rfl
    exact not_openEnd_nil _ h.openEnd
  have hpieces := pieces_cons lineRoom_ne_zero htext
  have hrest : dropLine lineRoom text ≠ [] := by
    intro hnil
    have heven := h.even
    rw [hpieces, hnil] at heven
    exact Nat.not_even_one heven
  rw [pieces_cons lineRoom_ne_zero hrest] at hpieces
  have hnul := h.noNul
  have hgood := h.good
  simp only [hpieces, List.forall_mem_cons, takeLine_head lineRoom_ne_zero] at hnul
  simp only [hpieces, List.length_cons] at hgood
  constructor
  · exact hgood 0 (by omega)
  · exact hgood 1 (by omega)
  · exact exists_head_iff.mpr ⟨htext, hnul.1⟩
  · exact exists_head_iff.mpr ⟨hrest, hnul.2.1⟩

theorem GoodRound.readInPairs_iff {e : FileEnv} {tick : Nat} {text : Bytes}
    (h : GoodRound e tick text) :
    ReadInPairs e tick text ↔ LastRead lineRoom (dropLine lineRoom text) ∨
      ReadInPairs e (tick + 2) (dropLine lineRoom (dropLine lineRoom text)) := by
  obtain ⟨htext, hnulRk⟩ := exists_head_iff.mp h.rk
  obtain ⟨hrest, hnulMsg⟩ := exists_head_iff.mp h.msg
  have hpieces := h.pieces
  have hopen : OpenEnd lineRoom text ↔ LastRead lineRoom (dropLine lineRoom text) ∨
      OpenEnd lineRoom (dropLine lineRoom (dropLine lineRoom text)) := by
    have hnot : ¬ LastRead lineRoom text := fun hlast => hrest (dropLine_eq_nil.mpr hlast.1)
    rw [openEnd_cons lineRoom_ne_zero htext, openEnd_cons lineRoom_ne_zero hrest]
    simp [hnot]
  constructor
  · intro hpairs
    refine (hopen.mp hpairs.openEnd).imp id fun hopen' => ?_
    have heven := hpairs.even
    have hnul := hpairs.noNul
    have hgood := hpairs.good
    rw [hpieces] at heven hnul hgood
    refine ⟨hopen', ?_, fun piece hpiece => hnul piece (by simp [hpiece]), fun i hi => ?_⟩
    · simpa [Nat.even_add_one] using heven
    · rw [Nat.add_assoc, Nat.add_comm 2 i]
      exact hgood (i + 2) (by simp only [List.length_cons]; omega)
  · intro hleft
    have hlater : Even (CLib.pieces lineRoom (dropLine lineRoom (dropLine lineRoom text))).length ∧
        (∀ piece ∈ CLib.pieces lineRoom (dropLine lineRoom (dropLine lineRoom text)),
          piece.head? ≠ some 0) ∧
        ∀ i < (CLib.pieces lineRoom (dropLine lineRoom (dropLine lineRoom text))).length,
          e.fgets (tick + 2 + i) = none := by
      rcases hleft with hlast | hpairs
      · rw [dropLine_eq_nil.mpr hlast.1]
        simp
      · exact ⟨hpairs.even, hpairs.noNul, hpairs.good⟩
    obtain ⟨heven, hnul, hgood⟩ := hlater
    refine ⟨hopen.mpr (hleft.imp id ReadInPairs.openEnd), ?_, ?_, ?_⟩
    · rw [hpieces]
      simpa [Nat.even_add_one] using heven
    · rw [hpieces]
      simp only [List.forall_mem_cons, takeLine_head lineRoom_ne_zero]
      exact ⟨hnulRk, hnulMsg, hnul⟩
    · rw [hpieces]
      intro i hi
      match i with
      | 0 => exact h.goodRk
      | 1 => exact h.goodMsg
      | i + 2 =>
          rw [Nat.add_comm i 2, ← Nat.add_assoc]
          exact hgood i (by simpa using hi)

section
variable {e : FileEnv} {m : Malloc EventNode}

theorem LoadState.Round.safe_iff {s s' : LoadState} {st st₁ st₂ : Stream} {d₁ : Disk}
    {r : ReadPair} (h : s.Round e st s' r st₁ d₁ st₂) :
    r.Safe ↔ GoodRound e s.fifo.disk.tick (st.unread s.fifo.disk) := by
  have hsize : 1 < eventMsgMaxSize := by decide
  have hrk := fgets_usable_iff e s.rk st s.fifo.disk hsize
  have hunread := fgets_unread (e := e) (d := s.fifo.disk) eventMsgMaxSize s.rk st
  have hmsg := fgets_usable_iff e s.msg st₁ d₁ hsize
  rw [h.first] at hrk hunread
  rw [h.second, h.between] at hmsg
  constructor
  · intro hsafe
    obtain ⟨hgood, htext⟩ := hrk.mp ⟨hsafe.gotRk, hsafe.rk⟩
    obtain ⟨hgood', hrest⟩ := hmsg.mp ⟨hsafe.gotMsg, hsafe.msg⟩
    rw [hunread hgood] at hrest
    exact ⟨hgood, hgood', htext, hrest⟩
  · intro hgood
    obtain ⟨hgotRk, hrkUsable⟩ := hrk.mpr ⟨hgood.goodRk, hgood.rk⟩
    have hrest := hgood.msg
    rw [lineRoom, ← hunread hgood.goodRk] at hrest
    obtain ⟨hgotMsg, hmsgUsable⟩ := hmsg.mpr ⟨hgood.goodMsg, hrest⟩
    exact ⟨hgotRk, hgotMsg, hrkUsable, hmsgUsable⟩

theorem LoadState.Round.rest {s s' : LoadState} {st st₁ st₂ : Stream} {d₁ : Disk} {r : ReadPair}
    (h : s.Round e st s' r st₁ d₁ st₂) (hmore : st.eof = false)
    (hgood : GoodRound e s.fifo.disk.tick (st.unread s.fifo.disk)) :
    st₂.unread s'.fifo.disk = dropLine lineRoom (dropLine lineRoom (st.unread s.fifo.disk)) ∧
      (st₂.eof = true ↔ LastRead lineRoom (dropLine lineRoom (st.unread s.fifo.disk))) := by
  have hunread := fgets_unread (e := e) (d := s.fifo.disk) eventMsgMaxSize s.rk st hgood.goodRk
  have heof := fgets_eof (e := e) (d := s.fifo.disk) eventMsgMaxSize s.rk st hgood.goodRk
  have hgood' : e.fgets d₁.tick = none := h.between ▸ hgood.goodMsg
  have hunread' := fgets_unread (e := e) (d := d₁) eventMsgMaxSize s.msg st₁ hgood'
  have heof' := fgets_eof (e := e) (d := d₁) eventMsgMaxSize s.msg st₁ hgood'
  rw [h.first] at hunread heof
  rw [h.second, hunread] at hunread' heof'
  have hnot : ¬ LastRead lineRoom (st.unread s.fifo.disk) :=
    fun hlast => (exists_head_iff.mp hgood.msg).1 (dropLine_eq_nil.mpr hlast.1)
  rw [lineRoom] at hnot
  refine ⟨hunread', ?_⟩
  rw [heof', heof, hmore]
  simp [hnot, lineRoom]

/-! ## Every round -/

/-- Both arrays were sound in every round so far. -/
def LoadState.ReadsSafe (s : LoadState) : Prop := ∀ r ∈ s.reads, r.Safe

theorem loadRounds_of_eof {n : Nat} {s : LoadState} {st : Stream} (hst : s.fifo.pFile = some st)
    (heof : st.eof = true) : loadRounds e m n s = s := by
  cases n with
  | zero => rfl
  | succ n => simp [loadRounds, hst, heof]

theorem loadRounds_succ {n : Nat} {s : LoadState} {st : Stream} (hst : s.fifo.pFile = some st)
    (hmore : st.eof = false) :
    loadRounds e m (n + 1) s = loadRounds e m n (loadStep e m st s) := by
  simp [loadRounds, hst, hmore]

theorem loadRounds_safe_step {s : LoadState} {st : Stream} (hst : s.fifo.pFile = some st)
    (hmore : st.eof = false) : (∀ n, (loadRounds e m n s).ReadsSafe) ↔
      ∀ n, (loadRounds e m n (loadStep e m st s)).ReadsSafe := by
  constructor
  · intro h n
    have hnext := h (n + 1)
    rw [loadRounds_succ hst hmore] at hnext
    exact hnext
  · intro h n
    cases n with
    | zero =>
        intro r hr
        obtain ⟨r', st₁, d₁, st₂, hround⟩ := loadStep_round (e := e) (m := m) st s
        exact h 0 r (hround.reads ▸ List.mem_append_left [r'] hr)
    | succ n =>
        rw [loadRounds_succ hst hmore]
        exact h n

/-- Induction on what is left of the file: a round that is safe takes two pieces of it. -/
theorem loadRounds_safe_iff (n : Nat) {s : LoadState} {st : Stream}
    (hst : s.fifo.pFile = some st) (hmore : st.eof = false)
    (hleft : (st.unread s.fifo.disk).length ≤ n) :
    (∀ n, (loadRounds e m n s).ReadsSafe) ↔
      s.ReadsSafe ∧ ReadInPairs e s.fifo.disk.tick (st.unread s.fifo.disk) := by
  induction n using Nat.strongRecOn generalizing s st with
  | ind n ih =>
      obtain ⟨r, st₁, d₁, st', hround⟩ := loadStep_round (e := e) (m := m) st s
      have hstep : (loadStep e m st s).ReadsSafe ↔ s.ReadsSafe ∧ r.Safe := by
        rw [LoadState.ReadsSafe, hround.reads, List.forall_mem_append, List.forall_mem_singleton]
        exact Iff.rfl
      rw [loadRounds_safe_step hst hmore]
      by_cases hgood : GoodRound e s.fifo.disk.tick (st.unread s.fifo.disk)
      · obtain ⟨hrest, hend⟩ := hround.rest hmore hgood
        rw [hround.safe_iff] at hstep
        simp only [hgood, and_true] at hstep
        rw [hgood.readInPairs_iff, ← hend]
        cases heof : st'.eof with
        | true =>
            simp only [loadRounds_of_eof hround.stream heof, hstep]
            simp
        | false =>
            have hlt := dropLine_length_lt lineRoom_ne_zero (exists_head_iff.mp hgood.rk).1
            have hlt' := dropLine_length_lt lineRoom_ne_zero (exists_head_iff.mp hgood.msg).1
            have hless : (st'.unread (loadStep e m st s).fifo.disk).length < n := by
              rw [hrest]
              omega
            rw [ih _ hless hround.stream heof (Nat.le_refl _), hstep, hrest, hround.tick]
            simp
      · apply iff_of_false
        · intro h
          exact hgood (hround.safe_iff.mp (hstep.mp (h 0)).2)
        · rintro ⟨-, hpairs⟩
          exact hgood hpairs.goodRound

end

/-! ## n2a_load -/

section
variable (e : FileEnv) (m : Malloc EventNode) (stack : Bytes × Bytes) (maxSize : UInt32) (disk : Disk)

/-- The arrays are sound in every round exactly if the file could not be opened or its
pieces are read in pairs. -/
theorem n2aLoad_readsSafe_iff :
    (∀ n, ∀ r ∈ n2aLoadReads e m stack n (Fifo.created maxSize disk), r.Safe) ↔
      ∀ d, openedDisk e disk = some d → ReadInPairs e d.tick (d.content.getD []) := by
  rcases n2aLoad_cases e m stack maxSize disk with ⟨hopen, hload⟩ | ⟨d, hopen, hload⟩
  · apply iff_of_true
    · intro n r hr
      rw [(hload n).1] at hr
      cases hr
    · intro d hd
      rw [hopen] at hd
      cases hd
  · have hstart : (LoadState.opened maxSize stack d).fifo.pFile = some Stream.start := rfl
    have hiff := loadRounds_safe_iff (e := e) (m := m) _ hstart rfl (Nat.le_refl _)
    have hnone : (LoadState.opened maxSize stack d).ReadsSafe := List.forall_mem_nil _
    simp only [hnone, true_and] at hiff
    simp only [hload, hopen, Option.some.injEq, forall_eq']
    exact hiff

end

/-- A file that `n2a_csync` wrote ends in a newline: after its one record another round
reads nothing. -/
theorem saved_file_misread : ¬ ∀ n, ∀ r ∈ n2aLoadReads .reliable Heap.bump ([], []) n
    (Fifo.created 5 ⟨some (serialize [⟨.lit "a", .lit "b"⟩]), []⟩), r.Safe := by
  intro hsafe
  have hread : (n2aLoadReads .reliable Heap.bump ([], []) 2 (Fifo.created 5
      ⟨some (serialize [⟨.lit "a", .lit "b"⟩]), []⟩)).all ReadPair.gotRk = false := by
    decide +kernel
  obtain ⟨r, hr, hgot⟩ := List.all_eq_false.mp hread
  exact hgot (hsafe 2 r hr).gotRk

section
variable (e : FileEnv) (m : Malloc EventNode) (stack : Bytes × Bytes) (maxSize : UInt32) (disk : Disk)

/-- It returns exactly if as many reads succeed as it takes to meet the end of the file. -/
theorem n2aLoad_returns_iff :
    (∃ fuel s, n2aLoad e m stack fuel (Fifo.created maxSize disk) = some s) ↔
      ∀ d, openedDisk e disk = some d →
        ∃ n, readsToEnd lineRoom (d.content.getD []) ≤ e.goodReads d.tick n := by
  simp only [← Option.isSome_iff_exists]
  rcases n2aLoad_cases e m stack maxSize disk with ⟨hopen, hload⟩ | ⟨d, hopen, hload⟩
  · apply iff_of_true ⟨0, (hload 0).2⟩
    intro d hd
    rw [hopen] at hd
    cases hd
  · have hstart : (LoadState.opened maxSize stack d).fifo.pFile = some Stream.start := rfl
    have hiff := loadLoop_ends_iff (e := e) (m := m) hstart
    simp only [(hload _).2, Option.isSome_map, hopen, Option.some.injEq, forall_eq']
    exact hiff

end

/-- Where every read fails, a file that is there is never read to its end. -/
theorem failing_reads_hang : ¬ ∃ fuel s,
    n2aLoad { FileEnv.reliable with fgets := fun _ => some [] } Heap.bump ([], []) fuel
      (Fifo.created 5 ⟨some (serialize [⟨.lit "a", .lit "b"⟩]), []⟩) = some s := by
  rintro ⟨fuel, s, hload⟩
  rcases n2aLoad_cases { FileEnv.reliable with fgets := fun _ => some [] } Heap.bump ([], []) 5
    ⟨some (serialize [⟨.lit "a", .lit "b"⟩]), []⟩ with ⟨hopen, -⟩ | ⟨d, -, hloop⟩
  · cases hopen
  · rw [(hloop fuel).2] at hload
    obtain ⟨s', hs', -⟩ := Option.map_eq_some_iff.mp hload
    have hstart : (LoadState.opened 5 ([], []) d).fifo.pFile = some Stream.start := rfl
    obtain ⟨n, hn⟩ := (loadLoop_ends_iff hstart).mp ⟨fuel, by rw [hs']; rfl⟩
    rw [FileEnv.goodReads_eq_zero fun _ => Option.some_ne_none _] at hn
    exact absurd hn (Nat.not_le.mpr (readsToEnd_pos lineRoom_ne_zero _))

end Neb2Amqp
