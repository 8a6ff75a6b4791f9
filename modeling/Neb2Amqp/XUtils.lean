import Neb2Amqp.Library.CString

/-!
# String helpers of xutils.c
-/

namespace Neb2Amqp

open CLib

/-- A NULL pointer counts as the empty text, and no text as longer than `UINT_MAX`. -/
def xstrlen (p : Option CString) : Nat := min (p.elim 0 CString.strlen) uintMax

/-- The string after an iteration of `n2a_str_join` that copies `p`. No more of the
string before is kept than `xstrlen` counts, and no more of the delimiter. -/
def joinedWith (delim : CString) (ret : Option CString) (p : CString) : CString :=
  let len := xstrlen ret
  let kept := (ret.getD (.ofBytes [])).take len
  if len > 0 then kept ++ delim.take (xstrlen (some delim)) ++ p else kept ++ p

/-- The loop of `n2a_str_join`: the string so far, its length and the number of
the `realloc` to come. The list of arguments ends at the first NULL. -/
def strJoinLoop (realloc : Nat → Bool) (delim : CString) :
    List (Option CString) → Option CString → Nat → Nat → Option CString
  | [], ret, _, _ => ret
  | none :: _, ret, _, _ => ret
  | some p :: args, ret, length, i =>
      let len := xstrlen ret
      let length := (if len > 0 then length + xstrlen (some delim) else length) + xstrlen (some p)
      if realloc i then
        strJoinLoop realloc delim args (some (joinedWith delim ret p)) length (i + 1)
      else ret

def n2aStrJoin (realloc : Nat → Bool) (delim : CString) (args : List (Option CString)) :
    Option CString :=
  strJoinLoop realloc delim args none 0 0

/-- `size_t` on the left, `int` on the right: the right side is converted first,
so that no length exceeds a negative bound. -/
def exceeds (n : Nat) (bound : Int32) : Bool := bound.toInt64.toUInt64.toNat < n

/-! ## The length of a joined text -/

/-- How long a text `n2a_str_join` makes, behind `length` bytes and `i` calls of
`realloc`. The arguments end at the first NULL. -/
def joinedLength (realloc : Nat → Bool) (delim : Nat) :
    List (Option CString) → Nat → Nat → Nat
  | [], length, _ => length
  | none :: _, length, _ => length
  | some p :: args, length, i =>
      if realloc i then
        joinedLength realloc delim args
          ((if 0 < length then length + delim else length) + p.strlen) (i + 1)
      else length

theorem xstrlen_some (s : CString) : xstrlen (some s) = min s.strlen uintMax := rfl

theorem xstrlen_le_uintMax (p : Option CString) : xstrlen p ≤ uintMax := Nat.min_le_right _ _

variable {realloc : Nat → Bool} {delim : CString}

theorem strlen_kept (ret : Option CString) :
    ((ret.getD (.ofBytes [])).take (xstrlen ret)).strlen = xstrlen ret := by
  rw [CString.strlen_take]
  cases ret with
  | none => rfl
  | some text =>
      rw [xstrlen_some]
      exact Nat.min_eq_left (Nat.min_le_left _ _)

theorem strlen_joinedWith (delim : CString) (ret : Option CString) (p : CString) :
    (joinedWith delim ret p).strlen =
      (if 0 < xstrlen ret then xstrlen ret + xstrlen (some delim) else xstrlen ret) + p.strlen := by
  unfold joinedWith
  simp only []
  by_cases hpos : xstrlen ret > 0
  · rw [if_pos hpos, if_pos hpos, CString.strlen_append, CString.strlen_append, strlen_kept,
      CString.strlen_take, xstrlen_some]
    omega
  · rw [if_neg hpos, if_neg hpos, CString.strlen_append, strlen_kept]

/-- Nothing is lost of lengths that `xstrlen` counts. -/
theorem joinedWith_eq {text : CString} (hhead : 0 < text.strlen ∨ delim.strlen = 0)
    (htext : text.strlen ≤ uintMax) (hdelim : delim.strlen ≤ uintMax) (p : CString) :
    joinedWith delim (some text) p = text ++ delim ++ p := by
  have hlength : xstrlen (some text) = text.strlen := Nat.min_eq_left htext
  have hcount : xstrlen (some delim) = delim.strlen := Nat.min_eq_left hdelim
  have hkept : text.take text.strlen = text := CString.ext List.take_length
  have hwhole : delim.take delim.strlen = delim := CString.ext List.take_length
  simp only [joinedWith, hlength, hcount, Option.getD_some, hkept, hwhole]
  split
  · rfl
  · have hempty : delim.bytes = [] := List.length_eq_zero_iff.mp (hhead.resolve_left (by assumption))
    apply CString.ext
    change text.bytes ++ p.bytes = text.bytes ++ delim.bytes ++ p.bytes
    rw [hempty, List.append_nil]

theorem xstrlen_strJoinLoop {args : List (Option CString)} {ret : Option CString}
    {length joined i : Nat} (h : xstrlen ret = min joined uintMax) :
    xstrlen (strJoinLoop realloc delim args ret length i) =
      min (joinedLength realloc delim.strlen args joined i) uintMax := by
  induction args generalizing ret length joined i with
  | nil => exact h
  | cons arg args ih =>
      cases arg with
      | none => exact h
      | some p =>
          unfold strJoinLoop joinedLength
          simp only []
          split
          · apply ih
            have hmax : 0 < uintMax := by decide
            rw [xstrlen_some, strlen_joinedWith, xstrlen_some]
            by_cases hpos : 0 < joined
            · have hlen : 0 < xstrlen ret := by omega
              rw [if_pos hlen, if_pos hpos]
              omega
            · have hlen : ¬ 0 < xstrlen ret := by omega
              rw [if_neg hlen, if_neg hpos]
              omega
          · exact h

theorem xstrlen_n2aStrJoin (realloc : Nat → Bool) (delim : CString) (args : List (Option CString)) :
    xstrlen (n2aStrJoin realloc delim args) =
      min (joinedLength realloc delim.strlen args 0 0) uintMax :=
  xstrlen_strJoinLoop rfl

/-! ## The joined text itself -/

theorem le_joinedLength (realloc : Nat → Bool) (delim : Nat) (args : List (Option CString))
    (length i : Nat) : length ≤ joinedLength realloc delim args length i := by
  induction args generalizing length i with
  | nil => exact Nat.le_refl length
  | cons arg args ih =>
      cases arg with
      | none => exact Nat.le_refl length
      | some p =>
          unfold joinedLength
          split
          · refine Nat.le_trans ?_ (ih _ (i + 1))
            split <;> omega
          · exact Nat.le_refl length

theorem joinedLength_of_pos (delim : Nat) (ps : List CString) {length : Nat} (i : Nat)
    (hlength : 0 < length) : joinedLength (fun _ => true) delim (ps.map some) length i =
      length + (ps.map fun p => delim + p.strlen).sum := by
  induction ps generalizing length i with
  | nil => rfl
  | cons p ps ih =>
      rw [List.map_cons, joinedLength, if_pos rfl, if_pos hlength, ih (i + 1) (by omega),
        List.map_cons, List.sum_cons]
      omega

theorem strJoinLoop_eq {ps : List CString} {text : CString} {length i : Nat}
    (htext : 0 < text.strlen)
    (hfits : joinedLength (fun _ => true) delim.strlen (ps.map some) text.strlen i ≤ uintMax) :
    strJoinLoop (fun _ => true) delim (ps.map some) (some text) length i =
      some (ps.foldl (fun text p => text ++ delim ++ p) text) := by
  induction ps generalizing text length i with
  | nil => rfl
  | cons p ps ih =>
      have hnext : (text ++ delim ++ p).strlen = text.strlen + delim.strlen + p.strlen := by
        rw [CString.strlen_append, CString.strlen_append]
      rw [List.map_cons, joinedLength, if_pos rfl, if_pos htext, ← hnext] at hfits
      have hjoined := le_joinedLength (fun _ => true) delim.strlen (ps.map some)
        (text ++ delim ++ p).strlen (i + 1)
      rw [List.map_cons, strJoinLoop]
      simp only [if_true, joinedWith_eq (.inl htext) (show text.strlen ≤ uintMax by omega)
        (show delim.strlen ≤ uintMax by omega), List.foldl_cons]
      exact ih (by omega) hfits

theorem n2aStrJoin_eq {first : CString} {ps : List CString} (hfirst : 0 < first.strlen)
    (hfits : joinedLength (fun _ => true) delim.strlen ((first :: ps).map some) 0 0 ≤ uintMax) :
    n2aStrJoin (fun _ => true) delim ((first :: ps).map some) =
      some (ps.foldl (fun text p => text ++ delim ++ p) first) := by
  have hstart : joinedLength (fun _ => true) delim.strlen (ps.map some) first.strlen 1 ≤ uintMax := by
    simpa [joinedLength] using hfits
  have hone : joinedWith delim none first = first := CString.ext rfl
  rw [n2aStrJoin, List.map_cons, strJoinLoop]
  simp only [if_true, hone]
  exact strJoinLoop_eq hfirst hstart

/-! ## Cutting -/

theorem exceeds_iff {n : Nat} {bound : Int32} (hn : n ≤ uintMax) :
    exceeds n bound = true ↔ 0 ≤ bound.toInt ∧ bound.toInt < n := by
  have hlo := bound.le_toInt
  have hlt := bound.toInt_lt
  have hmax : uintMax = 4294967295 := rfl
  have hvalue := toNat_toUInt64 bound
  rw [exceeds, decide_eq_true_iff]
  omega

end Neb2Amqp
