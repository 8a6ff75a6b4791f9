import Neb2Amqp.Library.Stdio

/-!
# A file read in pieces

`fgets` takes a text apart into its lines, and those that do not fit the array
into several pieces. How many reads it takes to find the end of the file depends on
the last piece, and on the reads that fail in between.
-/

namespace CLib

/-! ## Pieces -/

theorem takeLine_nil (n : Nat) : takeLine n [] = [] := by cases n <;> rfl

theorem takeLine_initial (n : Nat) (text : Bytes) : takeLine n text <+: text := by
  induction n generalizing text with
  | zero => exact List.nil_prefix
  | succ n ih =>
      cases text with
      | nil => exact List.nil_prefix
      | cons c rest =>
          by_cases hc : c = 10
          · simp [takeLine, hc]
          · simp [takeLine, hc, ih]

theorem takeLine_length_le (n : Nat) (text : Bytes) : (takeLine n text).length ≤ n := by
  induction n generalizing text with
  | zero => exact Nat.le_refl 0
  | succ n ih =>
      cases text with
      | nil => exact Nat.zero_le _
      | cons c rest =>
          have hrest := ih rest
          by_cases hc : c = 10
          · simp [takeLine, hc]
          · simp [takeLine, hc, hrest]

theorem takeLine_head {n : Nat} (hn : n ≠ 0) (text : Bytes) :
    (takeLine n text).head? = text.head? := by
  obtain ⟨n, rfl⟩ := Nat.exists_eq_succ_of_ne_zero hn
  cases text with
  | nil => rfl
  | cons c rest =>
      unfold takeLine
      split <;> rfl

/-- What a line read by `takeLine` leaves. -/
def dropLine (n : Nat) (text : Bytes) : Bytes := text.drop (takeLine n text).length

@[simp] theorem dropLine_nil (n : Nat) : dropLine n [] = [] := List.drop_nil

theorem dropLine_length (n : Nat) (text : Bytes) :
    (dropLine n text).length = text.length - (takeLine n text).length := List.length_drop

theorem dropLine_length_lt {n : Nat} (hn : n ≠ 0) {text : Bytes} (htext : text ≠ []) :
    (dropLine n text).length < text.length := by
  have htaken := List.length_pos_of_ne_nil (takeLine_ne_nil hn htext)
  have hlength := List.length_pos_of_ne_nil htext
  rw [dropLine_length]
  omega

theorem dropLine_eq_nil {n : Nat} {text : Bytes} :
    dropLine n text = [] ↔ (takeLine n text).length = text.length := by
  have hle := (takeLine_initial n text).length_le
  rw [← List.length_eq_zero_iff, dropLine_length]
  omega

def piecesFrom (room : Nat) : Nat → Bytes → List Bytes
  | 0, _ => []
  | fuel + 1, text =>
      if text = [] then [] else takeLine room text :: piecesFrom room fuel (dropLine room text)

/-- What a text is read in, when each read has room for that many bytes. -/
def pieces (room : Nat) (text : Bytes) : List Bytes := piecesFrom room text.length text

@[simp] theorem pieces_nil (room : Nat) : pieces room [] = [] := rfl

section
variable {room : Nat} (hroom : room ≠ 0)
include hroom

theorem piecesFrom_eq {fuel : Nat} {text : Bytes} (hfuel : text.length ≤ fuel) :
    piecesFrom room fuel text = pieces room text := by
  induction fuel using Nat.strongRecOn generalizing text with
  | ind fuel ih =>
      by_cases htext : text = []
      · subst htext
        cases fuel <;> rfl
      · have hrest := dropLine_length_lt hroom htext
        obtain ⟨k, rfl⟩ : ∃ k, fuel = k + 1 := ⟨fuel - 1, by omega⟩
        obtain ⟨n, hn⟩ : ∃ n, text.length = n + 1 := ⟨text.length - 1, by omega⟩
        rw [pieces, hn, piecesFrom, piecesFrom, if_neg htext, if_neg htext]
        rw [ih k (Nat.lt_succ_self k) (by omega)]
        by_cases hlast : n = k
        · rw [hlast, ih k (Nat.lt_succ_self k) (by omega)]
        · rw [ih n (by omega) (by omega)]

theorem pieces_cons {text : Bytes} (htext : text ≠ []) :
    pieces room text = takeLine room text :: pieces room (dropLine room text) := by
  have hrest := dropLine_length_lt hroom htext
  obtain ⟨n, hn⟩ : ∃ n, text.length = n + 1 := ⟨text.length - 1, by omega⟩
  rw [pieces, hn, piecesFrom, if_neg htext, piecesFrom_eq hroom (by omega)]

theorem pieces_eq_nil {text : Bytes} : pieces room text = [] ↔ text = [] := by
  constructor
  · intro h
    by_contra htext
    rw [pieces_cons hroom htext] at h
    cases h
  · rintro rfl
    rfl

end

/-! ## The end -/

/-- A read that gets this piece and no more has met the end of the file. -/
def Unfinished (room : Nat) (piece : Bytes) : Prop :=
  piece.length < room ∧ piece.getLast? ≠ some 10

instance (room : Nat) (piece : Bytes) : Decidable (Unfinished room piece) :=
  inferInstanceAs (Decidable (_ ∧ _))

/-- The last piece has no newline and leaves room in the array. -/
def OpenEnd (room : Nat) (text : Bytes) : Prop :=
  ∃ piece ∈ (pieces room text).getLast?, Unfinished room piece

instance (room : Nat) (text : Bytes) : Decidable (OpenEnd room text) :=
  match h : (pieces room text).getLast? with
  | none => isFalse fun hopen => by
      obtain ⟨piece, hpiece, -⟩ := hopen
      rw [h] at hpiece
      cases hpiece
  | some piece =>
      decidable_of_iff (Unfinished room piece) <| by
        rw [OpenEnd, h]
        simp

/-- The next read meets the end. -/
def LastRead (room : Nat) (text : Bytes) : Prop :=
  (takeLine room text).length = text.length ∧ Unfinished room (takeLine room text)

instance (room : Nat) (text : Bytes) : Decidable (LastRead room text) :=
  inferInstanceAs (Decidable (_ ∧ _))

/-- How many reads that do not fail it takes to meet the end. -/
def readsToEnd (room : Nat) (text : Bytes) : Nat :=
  (pieces room text).length + if OpenEnd room text then 0 else 1

theorem not_openEnd_nil (room : Nat) : ¬ OpenEnd room [] := by
  rintro ⟨piece, hpiece, -⟩
  cases hpiece

theorem readsToEnd_nil (room : Nat) : readsToEnd room [] = 1 := by
  rw [readsToEnd, if_neg (not_openEnd_nil room)]
  rfl

section
variable {room : Nat} (hroom : room ≠ 0)
include hroom

theorem lastRead_nil : LastRead room [] := by
  rw [LastRead, Unfinished, takeLine_nil]
  exact ⟨rfl, Nat.pos_of_ne_zero hroom, nofun⟩

theorem openEnd_cons {text : Bytes} (htext : text ≠ []) :
    OpenEnd room text ↔ LastRead room text ∨ OpenEnd room (dropLine room text) := by
  unfold OpenEnd LastRead
  rw [pieces_cons hroom htext, ← dropLine_eq_nil]
  by_cases hrest : dropLine room text = []
  · simp [hrest]
  · obtain ⟨last, hlast⟩ : ∃ last, (pieces room (dropLine room text)).getLast? = some last :=
      Option.isSome_iff_exists.mp <| by simp [List.getLast?_isSome, pieces_eq_nil hroom, hrest]
    simp [hrest, List.getLast?_cons, hlast]

theorem readsToEnd_of_lastRead {text : Bytes} (hlast : LastRead room text) :
    readsToEnd room text = 1 := by
  by_cases htext : text = []
  · rw [htext, readsToEnd_nil]
  · rw [readsToEnd, if_pos ((openEnd_cons hroom htext).mpr (.inl hlast)),
      pieces_cons hroom htext, dropLine_eq_nil.mpr hlast.1]
    rfl

theorem readsToEnd_of_not_lastRead {text : Bytes} (hlast : ¬ LastRead room text) :
    readsToEnd room text = readsToEnd room (dropLine room text) + 1 := by
  have htext : text ≠ [] := fun h => hlast (h ▸ lastRead_nil hroom)
  have hopen := openEnd_cons hroom htext
  simp only [hlast, false_or] at hopen
  simp only [readsToEnd, pieces_cons hroom htext, List.length_cons, hopen]
  omega

end

theorem readsToEnd_pos {room : Nat} (hroom : room ≠ 0) (text : Bytes) :
    0 < readsToEnd room text := by
  by_cases hlast : LastRead room text
  · rw [readsToEnd_of_lastRead hroom hlast]
    exact Nat.one_pos
  · rw [readsToEnd_of_not_lastRead hroom hlast]
    exact Nat.succ_pos _

/-! ## Reading on -/

/-- How many of the next `n` calls of `fgets` do not fail. -/
def FileEnv.goodReads (e : FileEnv) : Nat → Nat → Nat
  | _, 0 => 0
  | tick, n + 1 => (if (e.fgets tick).isNone then 1 else 0) + e.goodReads (tick + 1) n

theorem FileEnv.goodReads_add (e : FileEnv) (tick m n : Nat) :
    e.goodReads tick (m + n) = e.goodReads tick m + e.goodReads (tick + m) n := by
  induction m generalizing tick with
  | zero => simp [goodReads]
  | succ m ih =>
      rw [Nat.succ_add, goodReads, goodReads, ih, Nat.add_assoc tick 1 m, Nat.add_comm 1 m,
        Nat.add_assoc]

theorem FileEnv.goodReads_mono (e : FileEnv) (tick : Nat) {m n : Nat} (h : m ≤ n) :
    e.goodReads tick m ≤ e.goodReads tick n := by
  obtain ⟨k, rfl⟩ := Nat.exists_eq_add_of_le h
  rw [goodReads_add]
  exact Nat.le_add_right _ _

theorem FileEnv.goodReads_eq_zero {e : FileEnv} (he : ∀ n, e.fgets n ≠ none) (tick n : Nat) :
    e.goodReads tick n = 0 := by
  induction n generalizing tick with
  | zero => rfl
  | succ n ih => simp [goodReads, ih, he]

/-- How many more reads find the end of the file, if it was not met before. -/
def Stream.readsLeft (room : Nat) (st : Stream) (d : Disk) : Nat :=
  if st.eof then 0 else readsToEnd room (st.unread d)

theorem Stream.readsLeft_eq_zero {room : Nat} (hroom : room ≠ 0) {st : Stream} {d : Disk} :
    st.readsLeft room d = 0 ↔ st.eof = true := by
  have hpos := readsToEnd_pos hroom (st.unread d)
  unfold readsLeft
  cases st.eof with
  | true => simp
  | false => simp [hpos.ne']

section
variable (e : FileEnv) (size : Nat) (buf : Bytes) (st : Stream) (d : Disk)

theorem fgets_disk : (fgets e size buf st d).2.2.2 = d.record d.content := by
  unfold fgets
  split
  · rfl
  · dsimp only
    split <;> rfl

variable {e size buf st d}

theorem fgets_failed {scribble : Bytes} (hfail : e.fgets d.tick = some scribble) :
    fgets e size buf st d =
      (false, overwrite buf 0 scribble, { st with error := true }, d.record d.content) := by
  simp [fgets, hfail]

variable (size buf st) in
theorem fgets_unread (hok : e.fgets d.tick = none) :
    (fgets e size buf st d).2.2.1.unread (fgets e size buf st d).2.2.2 =
      dropLine (size - 1) (st.unread d) := by
  have hpos : (fgets e size buf st d).2.2.1.pos =
      st.pos + (takeLine (size - 1) (st.unread d)).length := by
    unfold fgets
    rw [hok]
    dsimp only
    split <;> rfl
  rw [fgets_disk, Stream.unread, hpos]
  exact List.drop_drop.symm

variable (size buf st) in
theorem fgets_eof (hok : e.fgets d.tick = none) : (fgets e size buf st d).2.2.1.eof =
    (st.eof || decide (LastRead (size - 1) (st.unread d))) := by
  unfold fgets
  rw [hok]
  dsimp only
  split <;> rfl

variable (e buf st d) in
theorem fgets_readsLeft (hsize : 1 < size) :
    (fgets e size buf st d).2.2.1.readsLeft (size - 1) (fgets e size buf st d).2.2.2 =
      st.readsLeft (size - 1) d - e.goodReads d.tick 1 := by
  have hroom : size - 1 ≠ 0 := by omega
  cases hread : e.fgets d.tick with
  | some scribble =>
      rw [fgets_failed hread]
      simp only [FileEnv.goodReads, hread]
      rfl
  | none =>
      simp only [FileEnv.goodReads, hread, Option.isNone_none, if_true, Nat.add_zero]
      rw [Stream.readsLeft, Stream.readsLeft, fgets_eof size buf st hread, fgets_unread size buf st hread]
      cases hend : st.eof with
      | true => rfl
      | false =>
          by_cases hlast : LastRead (size - 1) (st.unread d)
          · simp [hlast, readsToEnd_of_lastRead hroom hlast]
          · simp [hlast, readsToEnd_of_not_lastRead hroom hlast]

theorem fgets_got_iff : (fgets e size buf st d).1 = true ↔
    e.fgets d.tick = none ∧ takeLine (size - 1) (st.unread d) ≠ [] := by
  unfold fgets Stream.unread
  split
  · rename_i hfail
    simp [hfail]
  · rename_i hok
    dsimp only
    split <;> rename_i hline <;> simp [hok, hline]

theorem fgets_array (hok : e.fgets d.tick = none)
    (hline : takeLine (size - 1) (st.unread d) ≠ []) :
    (fgets e size buf st d).2.1 = overwrite buf 0 (takeLine (size - 1) (st.unread d) ++ [0]) := by
  unfold Stream.unread at hline ⊢
  unfold fgets
  rw [hok]
  dsimp only
  rw [if_neg hline]

end

/-! ## Strings read -/

theorem arrayStrlen_overwrite (buf line : Bytes) :
    arrayStrlen (overwrite buf 0 (line ++ [0])) = (line.takeWhile (· != 0)).length := by
  rw [overwrite_zero, List.append_assoc, arrayStrlen, List.takeWhile_append]
  by_cases hall : (line.takeWhile (· != 0)).length = line.length
  · simp [hall]
  · simp [hall]

/-- The string in an array is not empty and ends within it. -/
def Usable (size : Nat) (buf : Bytes) : Prop := 0 < arrayStrlen buf ∧ arrayStrlen buf < size

theorem takeWhile_pos {line : Bytes} :
    0 < (line.takeWhile (· != 0)).length ↔ ∃ c, line.head? = some c ∧ c ≠ 0 := by
  cases line with
  | nil => simp
  | cons c rest =>
      by_cases hc : c = 0
      · simp [hc]
      · simp [hc]

/-- A read leaves a usable string exactly if it does not fail and what it finds begins
with another byte than NUL. -/
theorem fgets_usable_iff (e : FileEnv) {size : Nat} (buf : Bytes) (st : Stream) (d : Disk)
    (hsize : 1 < size) :
    (fgets e size buf st d).1 = true ∧ Usable size (fgets e size buf st d).2.1 ↔
      e.fgets d.tick = none ∧ ∃ c, (st.unread d).head? = some c ∧ c ≠ 0 := by
  have hroom : size - 1 ≠ 0 := by omega
  have hhead := takeLine_head hroom (st.unread d)
  have hle := takeLine_length_le (size - 1) (st.unread d)
  rw [fgets_got_iff, ← hhead, ← takeWhile_pos, and_assoc]
  apply and_congr_right
  intro hok
  constructor
  · rintro ⟨hline, hpos, -⟩
    rw [fgets_array hok hline, arrayStrlen_overwrite] at hpos
    exact hpos
  · intro hpos
    have hshort := (List.takeWhile_prefix (· != 0) (l := takeLine (size - 1) (st.unread d))).length_le
    have hline : takeLine (size - 1) (st.unread d) ≠ [] := by
      intro hnil
      rw [hnil] at hpos
      cases hpos
    rw [Usable, fgets_array hok hline, arrayStrlen_overwrite]
    exact ⟨hline, hpos, by omega⟩

end CLib
