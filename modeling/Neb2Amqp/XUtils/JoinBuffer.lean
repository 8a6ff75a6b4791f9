import Neb2Amqp.Library.Block
import Neb2Amqp.Library.Run
import Neb2Amqp.Library.Separator
import Neb2Amqp.XUtils

/-!
# The block n2a_str_join writes to

The loop of `n2a_str_join` with the block it reallocates, the `length` it counts and the
places it copies to. Where no copy leaves the block, the string in it is the one that
`strJoinLoop` gives.
-/

namespace Neb2Amqp

open CLib

/-- The variables that live from one iteration to the next. -/
structure JoinState where
  ret : Option Bytes
  length : Nat

def JoinState.start : JoinState := ⟨none, 0⟩

/-- The string `ret` points to. -/
def JoinState.text (s : JoinState) : Option CString := s.ret.map (textAt · 0)

/-- `length` with the delimiter and `p`. A `size_t` does not wrap here: no `realloc` has
given a block of 2⁶³ bytes, and `xstrlen` adds less than 2³². -/
def JoinState.count (delim p : CString) (s : JoinState) : Nat :=
  (if xstrlen s.text > 0 then s.length + xstrlen (some delim) else s.length) + xstrlen (some p)

/-- Where `p` goes. -/
def JoinState.place (delim : CString) (s : JoinState) : Nat :=
  if xstrlen s.text > 0 then xstrlen s.text + xstrlen (some delim) else xstrlen s.text

/-- The delimiter is copied behind a string that is not empty. -/
def copyDelimiter (tmp : Bytes) (len : Nat) (delim : CString) : Except Stuck Bytes :=
  if len > 0 then strcpy tmp len delim else .ok tmp

/-- An iteration whose `realloc` succeeds. -/
def joinIteration (fill : Nat → UInt8) (delim p : CString) (s : JoinState) :
    Except Stuck JoinState := do
  let length := s.count delim p
  let tmp := realloc fill (s.ret.getD []) (length + 1)
  let ret ← copyDelimiter tmp (xstrlen s.text) delim
  let ret ← strcpy ret (s.place delim) p
  return ⟨some ret, length⟩

/-- The loop of `n2a_str_join`. `heap i` is `none` where call `i` of `realloc` fails,
and what the call leaves in the new bytes elsewhere. -/
def joinLoop (heap : Nat → Option (Nat → UInt8)) (delim : CString) :
    List (Option CString) → JoinState → Nat → Except Stuck JoinState
  | [], s, _ => .ok s
  | none :: _, s, _ => .ok s
  | some p :: args, s, i =>
      match heap i with
      | none => .ok ⟨s.ret, s.count delim p⟩
      | some fill => do
          let s ← joinIteration fill delim p s
          joinLoop heap delim args s (i + 1)

/-- The block `n2a_str_join` returns. -/
def n2aStrJoinBlock (heap : Nat → Option (Nat → UInt8)) (delim : CString)
    (args : List (Option CString)) : Except Stuck (Option Bytes) := do
  let s ← joinLoop heap delim args .start 0
  return s.ret

/-! ## One iteration -/

section
variable {fill : Nat → UInt8} {delim p : CString} {s s' : JoinState}

theorem strlen_text_le : xstrlen s.text ≤ (s.ret.getD []).length := by
  cases hret : s.ret with
  | none => simp [JoinState.text, hret, xstrlen]
  | some block =>
      rw [JoinState.text, hret, Option.map_some, xstrlen_some]
      exact Nat.le_trans (Nat.min_le_left _ _) (strlen_textAt_le block)

theorem take_ret : (s.ret.getD []).take (xstrlen s.text) =
    ((s.text.getD (.ofBytes [])).take (xstrlen s.text)).bytes := by
  cases hret : s.ret with
  | none => simp [JoinState.text, hret, xstrlen]
  | some block =>
      rw [JoinState.text, hret]
      exact take_textAt (Nat.min_le_left _ _)

/-- The block that `realloc` gives the iteration. -/
def JoinState.tmp (fill : Nat → UInt8) (delim p : CString) (s : JoinState) : Bytes :=
  realloc fill (s.ret.getD []) (s.count delim p + 1)

theorem tmp_length : (s.tmp fill delim p).length = s.count delim p + 1 := realloc_length _ _ _

theorem tmp_take (hroom : xstrlen s.text ≤ s.count delim p + 1) :
    (s.tmp fill delim p).take (xstrlen s.text) =
      ((s.text.getD (.ofBytes [])).take (xstrlen s.text)).bytes := by
  rw [JoinState.tmp, realloc_take fill strlen_text_le hroom, take_ret]

theorem delimiter_copied {ret : Bytes}
    (h : copyDelimiter (s.tmp fill delim p) (xstrlen s.text) delim = .ok ret) :
    ret.length = s.count delim p + 1 ∧
      ret.take (s.place delim) ++ p.bytes = (joinedWith delim s.text p).bytes := by
  unfold copyDelimiter at h
  by_cases hpos : xstrlen s.text > 0
  · rw [if_pos hpos] at h
    have hroom := strcpy_room h
    have hcount : xstrlen (some delim) ≤ delim.strlen := Nat.min_le_left _ _
    rw [tmp_length] at hroom
    refine ⟨(strcpy_length h).trans tmp_length, ?_⟩
    rw [JoinState.place, if_pos hpos, strcpy_take h hcount, tmp_take (by omega), joinedWith]
    simp only [if_pos hpos]
    rfl
  · rw [if_neg hpos] at h
    cases h
    have hzero : xstrlen s.text = 0 := by omega
    refine ⟨tmp_length, ?_⟩
    rw [JoinState.place, if_neg hpos, tmp_take (by omega), joinedWith]
    simp only [if_neg hpos]
    rfl

theorem joinIteration_ok (h : joinIteration fill delim p s = .ok s') :
    s'.text = some (joinedWith delim s.text p) ∧ s'.length = s.count delim p ∧
      (∃ block, s'.ret = some block ∧ block.length = s'.length + 1) ∧
      s.place delim + p.strlen ≤ s.count delim p := by
  obtain ⟨ret, hdelim, h⟩ := bind_ok h
  obtain ⟨block, hcopy, h⟩ := bind_ok h
  cases h
  obtain ⟨hlength, hfront⟩ := delimiter_copied hdelim
  have hroom := strcpy_room hcopy
  have hnul : (0 : UInt8) ∉ ret.take (s.place delim) := by
    intro hmem
    apply (joinedWith delim s.text p).nulFree
    rw [← hfront]
    exact List.mem_append_left _ hmem
  refine ⟨?_, rfl, ⟨block, rfl, (strcpy_length hcopy).trans hlength⟩, by omega⟩
  exact congrArg some (CString.ext ((strcpy_text hcopy hnul).trans hfront))

theorem joinIteration_inside (hdelim : 0 < xstrlen s.text → xstrlen s.text + delim.strlen ≤
    s.count delim p) (hp : s.place delim + p.strlen ≤ s.count delim p) :
    ∃ s', joinIteration fill delim p s = .ok s' := by
  have hfirst : ∃ ret, copyDelimiter (s.tmp fill delim p) (xstrlen s.text) delim = .ok ret := by
    unfold copyDelimiter
    by_cases hpos : xstrlen s.text > 0
    · rw [if_pos hpos, strcpy_inside_iff, tmp_length]
      have hroom := hdelim hpos
      omega
    · exact ⟨_, if_neg hpos⟩
  obtain ⟨ret, hret⟩ := hfirst
  have hlength := (delimiter_copied hret).1
  obtain ⟨block, hblock⟩ := strcpy_inside_iff.mpr
    (show s.place delim + p.strlen + 1 ≤ ret.length by omega)
  rw [JoinState.tmp] at hret
  simp only [joinIteration, hret, bind, Except.bind, hblock]
  exact ⟨_, rfl⟩

/-! ## The string of the loop -/

theorem joinLoop_text {heap : Nat → Option (Nat → UInt8)} {args : List (Option CString)} {i : Nat}
    (h : joinLoop heap delim args s i = .ok s') :
    s'.text = strJoinLoop (fun i => (heap i).isSome) delim args s.text s.length i := by
  induction args generalizing s i with
  | nil =>
      cases h
      rfl
  | cons arg args ih =>
      cases arg with
      | none =>
          cases h
          rfl
      | some p =>
          unfold joinLoop at h
          unfold strJoinLoop
          cases hheap : heap i with
          | none =>
              rw [hheap] at h
              cases h
              simp [JoinState.text]
          | some fill =>
              rw [hheap] at h
              obtain ⟨next, hnext, h⟩ := bind_ok h
              obtain ⟨htext, hlength, -, -⟩ := joinIteration_ok hnext
              rw [ih h, htext, hlength]
              simp [JoinState.count]

end

/-! ## Iteration by iteration -/

/-- Every iteration whose `realloc` succeeds copies inside the block and leaves a state
with `P`. The first `realloc` that fails ends the loop. -/
def EachIteration (heap : Nat → Option (Nat → UInt8)) (delim : CString) (P : JoinState → Prop) :
    List CString → JoinState → Nat → Prop
  | [], _, _ => True
  | p :: ps, s, i => ∀ fill, heap i = some fill →
      ∃ s', joinIteration fill delim p s = .ok s' ∧ P s' ∧ EachIteration heap delim P ps s' (i + 1)

/-- `length` is what `xstrlen` finds in `ret`, and the block has one byte more. -/
def JoinState.Exact (s : JoinState) : Prop :=
  ∃ block, s.ret = some block ∧ block.length = s.length + 1 ∧
    s.length = xstrlen (some (textAt block 0))

/-- The strings that are copied before a `realloc` fails. -/
def copiedStrings (realloc : Nat → Bool) : List CString → Nat → List CString
  | [], _ => []
  | p :: ps, i => if realloc i then p :: copiedStrings realloc ps (i + 1) else []

/-- The strings with the delimiter between each two. -/
def joined (delim : CString) (ps : List CString) : Bytes :=
  delim.bytes.intercalate (ps.map CString.bytes)

section
variable {heap : Nat → Option (Nat → UInt8)} {delim p : CString} {ps : List CString}
  {s s' : JoinState} {i : Nat}

theorem EachIteration.joinLoop_ok {P : JoinState → Prop} (h : EachIteration heap delim P ps s i) :
    ∃ s', joinLoop heap delim (ps.map some) s i = .ok s' := by
  induction ps generalizing s i with
  | nil => exact ⟨s, rfl⟩
  | cons p ps ih =>
      rw [List.map_cons]
      unfold joinLoop
      cases hheap : heap i with
      | none => exact ⟨_, rfl⟩
      | some fill =>
          obtain ⟨next, hnext, -, hrest⟩ := h fill hheap
          simp only [hnext, bind, Except.bind]
          exact ih hrest

theorem JoinState.Exact.agrees (h : s.Exact) : s.length = xstrlen s.text := by
  obtain ⟨block, hret, -, hlength⟩ := h
  rw [JoinState.text, hret]
  exact hlength

theorem length_of_exact {fill : Nat → UInt8} (h : s.length = xstrlen s.text)
    (hok : joinIteration fill delim p s = .ok s') (hexact : s'.Exact) :
    s'.length = (if 0 < s.length then s.length + delim.strlen else s.length) + p.strlen := by
  obtain ⟨htext, hlength, -, hroom⟩ := joinIteration_ok hok
  have hagrees := hexact.agrees
  have hdelim : xstrlen (some delim) = min delim.strlen uintMax := rfl
  have hp : xstrlen (some p) = min p.strlen uintMax := rfl
  rw [htext, xstrlen_some, strlen_joinedWith, ← h] at hagrees
  rw [JoinState.count, ← h] at hlength
  rw [JoinState.place, JoinState.count, ← h] at hroom
  by_cases hpos : 0 < s.length
  · rw [if_pos hpos] at hagrees hlength hroom
    rw [if_pos hpos]
    omega
  · rw [if_neg hpos] at hagrees hlength hroom
    rw [if_neg hpos]
    omega

/-- From where `length` is right, strings that are counted right are copied inside the block. -/
theorem joinIteration_inside_of_counted (fill : Nat → UInt8) (h : s.length = xstrlen s.text)
    (hdelim : 0 < s.length → delim.strlen ≤ uintMax) (hp : p.strlen ≤ uintMax) :
    ∃ s', joinIteration fill delim p s = .ok s' := by
  have hpCount : xstrlen (some p) = p.strlen := Nat.min_eq_left hp
  apply joinIteration_inside
  · rw [JoinState.count, ← h]
    intro hpos
    have hdelimCount : xstrlen (some delim) = delim.strlen := Nat.min_eq_left (hdelim hpos)
    rw [if_pos hpos, hdelimCount]
    exact Nat.le_add_right _ _
  · rw [JoinState.place, JoinState.count, ← h, hpCount]

theorem joinIteration_exact_iff (fill : Nat → UInt8) (h : s.length = xstrlen s.text) :
    (∃ s', joinIteration fill delim p s = .ok s' ∧ s'.Exact) ↔
      (if 0 < s.length then s.length + delim.strlen else s.length) + p.strlen ≤ uintMax := by
  have hdelim : xstrlen (some delim) = min delim.strlen uintMax := rfl
  have hp : xstrlen (some p) = min p.strlen uintMax := rfl
  constructor
  · rintro ⟨s', hok, hexact⟩
    rw [← length_of_exact h hok hexact, hexact.agrees]
    exact xstrlen_le_uintMax s'.text
  · intro hfits
    have hdelimFits : 0 < s.length → delim.strlen ≤ uintMax := by
      intro hpos
      rw [if_pos hpos] at hfits
      omega
    obtain ⟨s', hok⟩ := joinIteration_inside_of_counted fill h hdelimFits
      (show p.strlen ≤ uintMax by omega)
    obtain ⟨htext, hlength, ⟨block, hret, hblock⟩, -⟩ := joinIteration_ok hok
    refine ⟨s', hok, block, hret, hblock, ?_⟩
    have hsame : some (textAt block 0) = s'.text := by
      rw [JoinState.text, hret]
      rfl
    rw [hsame, htext, xstrlen_some, strlen_joinedWith, hlength, JoinState.count, ← h]
    by_cases hpos : 0 < s.length
    · rw [if_pos hpos] at hfits ⊢
      omega
    · rw [if_neg hpos] at hfits ⊢
      omega

/-- The invariant of the loop: as long as nothing was lost, `length` is the length of the
join so far, and it stays so exactly if the whole join is counted by `xstrlen`. -/
theorem eachIteration_iff_joinedLength (h : s.length = xstrlen s.text) :
    EachIteration heap delim JoinState.Exact ps s i ↔
      joinedLength (fun i => (heap i).isSome) delim.strlen (ps.map some) s.length i ≤ uintMax := by
  induction ps generalizing s i with
  | nil =>
      have hle := xstrlen_le_uintMax s.text
      exact ⟨fun _ => by rwa [List.map_nil, joinedLength, h], fun _ => trivial⟩
  | cons p ps ih =>
      rw [List.map_cons]
      unfold EachIteration joinedLength
      cases hheap : heap i with
      | none =>
          have hle := xstrlen_le_uintMax s.text
          constructor
          · intro _
            simpa [h] using hle
          · intro _ fill hfill
            cases hfill
      | some fill =>
          have hlater := le_joinedLength (fun i => (heap i).isSome) delim.strlen (ps.map some)
            ((if 0 < s.length then s.length + delim.strlen else s.length) + p.strlen) (i + 1)
          rw [if_pos (by simp)]
          constructor
          · intro heach
            obtain ⟨s', hok, hexact, hrest⟩ := heach fill rfl
            rw [ih hexact.agrees, length_of_exact h hok hexact] at hrest
            exact hrest
          · intro hfits fill' hfill
            cases hfill
            obtain ⟨s', hok, hexact⟩ :=
              (joinIteration_exact_iff fill h).mpr (Nat.le_trans hlater hfits)
            refine ⟨s', hok, hexact, ?_⟩
            rw [ih hexact.agrees, length_of_exact h hok hexact]
            exact hfits

end

/-- As long as the lengths are counted right, the block holds what `n2aStrJoin` gives. -/
theorem n2aStrJoinBlock_refines {heap : Nat → Option (Nat → UInt8)} {delim : CString}
    {ps : List CString} (h : joinedLength (fun i => (heap i).isSome) delim.strlen (ps.map some) 0 0 ≤
      uintMax) :
    ∃ ret, n2aStrJoinBlock heap delim (ps.map some) = .ok ret ∧
      ret.map (textAt · 0) = n2aStrJoin (fun i => (heap i).isSome) delim (ps.map some) := by
  have hstart : JoinState.start.length = xstrlen JoinState.start.text := rfl
  obtain ⟨s, hloop⟩ := ((eachIteration_iff_joinedLength hstart).mpr h).joinLoop_ok
  refine ⟨s.ret, ?_, joinLoop_text hloop⟩
  rw [n2aStrJoinBlock, hloop]
  rfl

/-! ## How long the join of the copied strings is -/

section
variable {realloc : Nat → Bool} {delim : CString} {ps : List CString} {i : Nat}

theorem joinedLength_copied (delim length : Nat) :
    joinedLength realloc delim (ps.map some) length i =
      joinedLength (fun _ => true) delim ((copiedStrings realloc ps i).map some) length i := by
  induction ps generalizing length i with
  | nil => rfl
  | cons p ps ih =>
      rw [List.map_cons]
      unfold joinedLength copiedStrings
      split
      · rw [List.map_cons]
        exact ih _
      · rfl

theorem joinedLength_zero : joinedLength (fun _ => true) delim.strlen (ps.map some) 0 i =
    (joined delim (ps.dropWhile (·.strlen = 0))).length := by
  induction ps generalizing i with
  | nil => simp [joinedLength, joined]
  | cons p ps ih =>
      rw [List.map_cons, joinedLength, if_pos rfl, if_neg (Nat.lt_irrefl 0), Nat.zero_add]
      by_cases hp : p.strlen = 0
      · rw [List.dropWhile_cons_of_pos (by simpa using hp), hp]
        exact ih
      · rw [List.dropWhile_cons_of_neg (by simpa using hp),
          joinedLength_of_pos delim.strlen ps (i + 1) (by omega), joined, List.map_cons,
          length_intercalate_cons, List.map_map]
        rfl

end

/-- Every iteration copies inside its block and leaves `length` right exactly if the strings
copied before a `realloc` fails, joined without the empty ones at the front, are no longer
than `UINT_MAX`. -/
theorem n2aStrJoin_inside_iff (heap : Nat → Option (Nat → UInt8)) (delim : CString)
    (ps : List CString) :
    EachIteration heap delim JoinState.Exact ps .start 0 ↔
      (joined delim ((copiedStrings (fun i => (heap i).isSome) ps 0).dropWhile
        (·.strlen = 0))).length ≤ uintMax := by
  have hstart : JoinState.start.length = xstrlen JoinState.start.text := rfl
  rw [eachIteration_iff_joinedLength hstart, joinedLength_copied, JoinState.start,
    joinedLength_zero]

/-- One string with a byte more than `xstrlen` counts is copied past its block. -/
theorem n2aStrJoin_overrun : ¬ ∀ (heap : Nat → Option (Nat → UInt8)) (delim : CString)
    (ps : List CString), EachIteration heap delim JoinState.Exact ps .start 0 := by
  intro hinside
  have hnul : (0 : UInt8) ∉ List.replicate (uintMax + 1) 97 :=
    fun h => absurd (List.eq_of_mem_replicate h) (by decide)
  have heach := hinside (fun _ => some fun _ => 0) (.ofBytes [46]) [⟨_, hnul⟩]
  have hstart : JoinState.start.length = xstrlen JoinState.start.text := rfl
  rw [eachIteration_iff_joinedLength hstart] at heach
  have hlength : (⟨_, hnul⟩ : CString).strlen = uintMax + 1 := List.length_replicate
  rw [List.map_cons, joinedLength, hlength] at heach
  exact absurd heach (by decide)

end Neb2Amqp
