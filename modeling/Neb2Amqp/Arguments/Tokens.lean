import Neb2Amqp.Library.Buffer
import Neb2Amqp.Library.Ctype
import Neb2Amqp.Library.Words
import Neb2Amqp.XUtils

/-!
# Tokenizers of xutils.c

Both overwrite the separator behind a token in the array and leave the cursor on the
byte after it, or on the NUL where the text ends.
-/

namespace Neb2Amqp

open CLib

/-- What `xstrdup` copies: no more than `xstrlen` counts, and nothing of an empty text. -/
def xstrdup (dup : Option CString) : Option Bytes :=
  let len := xstrlen dup
  if len = 0 then none else some (((dup.getD (.ofBytes [])).bytes ++ [0]).take (len + 1))

/-- The pointer `n2a_lstrip` returns. -/
def n2aLstrip (mem : Bytes) (c : Option Nat) : Except Stuck Nat := do
  let c ← deref c
  seek mem c fun b => !isspace b

/-- The field found, the array and `*c` afterwards. -/
def n2aNextField (mem : Bytes) (c : Option Nat) :
    Except Stuck (Option Nat × Bytes × Option Nat) := do
  let first ← n2aLstrip mem c
  if mem[first]? = some 0 then
    .ok (none, mem, some first)
  else
    let last ← seek mem first fun b => b == 0 || isspace b
    if mem[last]? = some 0 then .ok (some first, mem, some last)
    else .ok (some first, mem.set last 0, some (last + 1))

/-- The token found, the array and `*c` afterwards. -/
def n2aNextToken (mem : Bytes) (c : Option Nat) (delim : UInt8) :
    Except Stuck (Option Nat × Bytes × Option Nat) := do
  let first ← deref c
  if mem[first]? = some 0 then
    .ok (none, mem, some first)
  else
    let last ← seek mem first fun b => b == 0 || b == delim
    if mem[last]? = some 0 then .ok (some first, mem, some last)
    else .ok (some first, mem.set last 0, some (last + 1))

/-! ## The next field -/

section
variable (front tail : Bytes) {gap field : Bytes}

theorem n2aNextField_end (hgap : ∀ b ∈ gap, isspace b = true) :
    n2aNextField (front ++ (gap ++ 0 :: tail)) (some front.length) =
      .ok (none, front ++ (gap ++ 0 :: tail), some (front.length + gap.length)) := by
  have hseek : seek (front ++ (gap ++ 0 :: tail)) front.length (fun b => !isspace b) =
      .ok (front.length + gap.length) :=
    seek_append (fun b hb => by simp [hgap b hb]) (by decide)
  simp only [n2aNextField, n2aLstrip, deref, bind, Except.bind, hseek, getElem?_middle, if_true]

theorem n2aLstrip_field (hgap : ∀ b ∈ gap, isspace b = true) {c : UInt8}
    (hc : isspace c = false) :
    n2aLstrip (front ++ (gap ++ c :: tail)) (some front.length) =
      .ok (front.length + gap.length) :=
  seek_append (fun b hb => by simp [hgap b hb]) (by simp [hc])

theorem n2aNextField_field (hgap : ∀ b ∈ gap, isspace b = true) (hne : field ≠ [])
    (hfield : ∀ b ∈ field, isspace b = false) (hnul : (0 : UInt8) ∉ field) {c : UInt8}
    (hc : c = 0 ∨ isspace c = true) :
    n2aNextField (front ++ (gap ++ (field ++ c :: tail))) (some front.length) =
      .ok (some (front ++ gap).length, (front ++ gap) ++ (field ++ 0 :: tail),
        some ((front ++ gap).length + field.length + if c = 0 then 0 else 1)) := by
  obtain ⟨b, rest, rfl⟩ := List.exists_cons_of_ne_nil hne
  have hfirst : n2aLstrip (front ++ (gap ++ (b :: rest ++ c :: tail))) (some front.length) =
      .ok (front ++ gap).length := by
    rw [List.length_append]
    exact n2aLstrip_field front _ hgap (hfield b List.mem_cons_self)
  have hb : (front ++ (gap ++ (b :: rest ++ c :: tail)))[(front ++ gap).length]? = some b := by
    rw [List.length_append]
    exact getElem?_middle
  have hbne : b ≠ 0 := fun h => hnul (h ▸ List.mem_cons_self)
  have hlast : seek (front ++ (gap ++ (b :: rest ++ c :: tail))) (front ++ gap).length
      (fun b => b == 0 || isspace b) = .ok ((front ++ gap).length + (b :: rest).length) := by
    rw [← List.append_assoc]
    apply seek_append
    · intro d hd
      have hdne : d ≠ 0 := fun h => hnul (h ▸ hd)
      simp [hdne, hfield d hd]
    · simpa using hc
  have hend : (front ++ (gap ++ (b :: rest ++ c :: tail)))[(front ++ gap).length +
      (b :: rest).length]? = some c := by
    rw [← List.append_assoc]
    exact getElem?_middle
  simp only [n2aNextField, hfirst, bind, Except.bind, hb, Option.some.injEq, hbne, if_false,
    hlast, hend]
  by_cases hzero : c = 0
  · simp [hzero]
  · rw [if_neg hzero, if_neg hzero, ← List.append_assoc, set_middle]

end

/-! ## The next token -/

section
variable (front tail : Bytes) {token : Bytes} {delim : UInt8}

theorem n2aNextToken_end :
    n2aNextToken (front ++ 0 :: tail) (some front.length) delim =
      .ok (none, front ++ 0 :: tail, some front.length) := by
  simp [n2aNextToken, deref, bind, Except.bind]

theorem n2aNextToken_token (hdelim : delim ∉ token) (hnul : (0 : UInt8) ∉ token) {c : UInt8}
    (hc : c = 0 ∨ c = delim) (hne : token = [] → c ≠ 0) :
    n2aNextToken (front ++ (token ++ c :: tail)) (some front.length) delim =
      .ok (some front.length, front ++ (token ++ 0 :: tail),
        some (front.length + token.length + if c = 0 then 0 else 1)) := by
  have hfirst : (front ++ (token ++ c :: tail))[front.length]? ≠ some 0 := by
    cases token with
    | nil =>
        rw [List.getElem?_append_right (Nat.le_refl _)]
        simpa using hne rfl
    | cons b rest =>
        have hb : b ≠ 0 := fun h => hnul (h ▸ List.mem_cons_self)
        rw [List.getElem?_append_right (Nat.le_refl _)]
        simpa using hb
  have hlast : seek (front ++ (token ++ c :: tail)) front.length (fun b => b == 0 || b == delim) =
      .ok (front.length + token.length) := by
    apply seek_append
    · intro b hb
      have hbne : b ≠ 0 := fun h => hnul (h ▸ hb)
      have hbdelim : b ≠ delim := fun h => hdelim (h ▸ hb)
      simp [hbne, hbdelim]
    · simpa using hc
  simp only [n2aNextToken, deref, bind, Except.bind, hfirst, if_false, hlast, getElem?_middle,
    Option.some.injEq]
  by_cases hzero : c = 0
  · simp [hzero]
  · rw [if_neg hzero, if_neg hzero, set_middle]

/-- A text cut in two: the second call gets what is behind the delimiter, up to the end. -/
theorem n2aNextToken_twice {w : Bytes} (hdelim : delim ≠ 0) (hw : (0 : UInt8) ∉ w) :
    ∃ c, n2aNextToken (front ++ (w ++ 0 :: tail)) (some front.length) delim =
        .ok (if w = [] then none else some front.length,
          front ++ (cut delim w ++ 0 :: tail), some c) ∧
      ∃ c', n2aNextToken (front ++ (cut delim w ++ 0 :: tail)) (some c) 0 =
        .ok (if after delim w = [] then none
            else some (front.length + (before delim w).length + 1),
          front ++ (cut delim w ++ 0 :: tail), c') := by
  by_cases hmem : delim ∈ w
  · -- the second call starts behind the delimiter
    have hne : w ≠ [] := List.ne_nil_of_mem hmem
    have hcut : cut delim w = before delim w ++ 0 :: after delim w := if_pos hmem
    have hpos : front.length + (before delim w).length + 1 =
        (front ++ (before delim w ++ [0])).length := by
      simp [Nat.add_assoc]
    have hfirst := n2aNextToken_token front (after delim w ++ 0 :: tail)
      (not_mem_before delim w) (not_mem_before_of hw) (.inr rfl) (fun _ => hdelim)
    rw [if_neg hdelim] at hfirst
    have htext : front ++ (w ++ 0 :: tail) =
        front ++ (before delim w ++ delim :: (after delim w ++ 0 :: tail)) := by
      conv => lhs; rw [← before_append_after hmem]
      simp
    have hmem₁ : front ++ (cut delim w ++ 0 :: tail) =
        front ++ (before delim w ++ 0 :: (after delim w ++ 0 :: tail)) := by
      rw [hcut]
      simp
    have hmem₂ : front ++ (cut delim w ++ 0 :: tail) =
        (front ++ (before delim w ++ [0])) ++ (after delim w ++ 0 :: tail) := by
      rw [hcut]
      simp
    refine ⟨_, by rw [htext, hfirst, if_neg hne, hmem₁], ?_⟩
    rw [hpos, hmem₂]
    by_cases hafter : after delim w = []
    · rw [hafter, if_pos rfl]
      exact ⟨_, n2aNextToken_end _ tail⟩
    · rw [if_neg hafter]
      exact ⟨_, n2aNextToken_token _ tail (not_mem_after hw) (not_mem_after hw) (.inl rfl)
        (fun h => absurd h hafter)⟩
  · -- the first call takes everything
    have hcut : cut delim w = w := if_neg hmem
    rw [after_of_not_mem hmem, hcut, if_pos rfl]
    by_cases hne : w = []
    · subst hne
      exact ⟨_, n2aNextToken_end front tail, _, n2aNextToken_end front tail⟩
    · have hfirst := n2aNextToken_token front tail hmem hw (.inl rfl)
        (fun h => absurd h hne)
      have hend : n2aNextToken (front ++ (w ++ 0 :: tail)) (some (front.length + w.length)) 0 =
          .ok (none, front ++ (w ++ 0 :: tail), some (front.length + w.length)) := by
        rw [← List.append_assoc, ← List.length_append]
        exact n2aNextToken_end (front ++ w) tail
      exact ⟨_, by rw [hfirst, if_neg hne, if_pos rfl, Nat.add_zero], _, hend⟩

end

end Neb2Amqp
