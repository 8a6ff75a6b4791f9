import Neb2Amqp.Library.CString

/-!
# Pointers into one array of bytes

A pointer is an offset into the array, or `none` for NULL. Reading through NULL or
behind the array has no defined result: the program is stuck there. A string that has
its NUL in the front part of the array keeps its text whatever happens behind.
-/

namespace CLib

inductive Stuck
  | null
  | outside
  deriving DecidableEq

/-- A pointer that is about to be read through. -/
def deref : Option Nat → Except Stuck Nat
  | none => .error .null
  | some p => .ok p

/-- The first place from `p` on with a byte that is looked for. -/
def seek (mem : Bytes) (p : Nat) (found : UInt8 → Bool) : Except Stuck Nat :=
  match (mem.drop p).findIdx? found with
  | some i => .ok (p + i)
  | none => .error .outside

/-- The string at `p`. -/
def textAt (mem : Bytes) (p : Nat) : CString := .ofBytes (mem.drop p)

theorem textAt_bytes (mem : Bytes) (p : Nat) :
    (textAt mem p).bytes = (mem.drop p).takeWhile (· != 0) := rfl

theorem CString.ofBytes_bytes {w : Bytes} (hw : (0 : UInt8) ∉ w) : (ofBytes w).bytes = w :=
  List.takeWhile_eq_self_iff.mpr fun _ hb => bne_iff_ne.mpr fun h => hw (h ▸ hb)

section
variable {front w tail : Bytes} {c : UInt8} {found : UInt8 → Bool}

theorem seek_append (hw : ∀ b ∈ w, found b = false) (hc : found c = true) :
    seek (front ++ (w ++ c :: tail)) front.length found = .ok (front.length + w.length) := by
  have hnone : w.findIdx? found = none := List.findIdx?_eq_none_iff.mpr hw
  have hidx : (w ++ c :: tail).findIdx? found = some w.length := by
    rw [List.findIdx?_append, hnone, List.findIdx?_cons, hc]
    simp
  rw [seek, List.drop_left, hidx]

theorem seek_outside (hw : ∀ b ∈ w, found b = false) :
    seek (front ++ w) front.length found = .error .outside := by
  rw [seek, List.drop_left, List.findIdx?_eq_none_iff.mpr hw]

theorem seek_le {mem : Bytes} {p stop : Nat} (wanted : UInt8 → Bool) (hle : p ≤ stop)
    (hstop : mem[stop]? = some c) (hc : wanted c = true) :
    ∃ q, seek mem p wanted = .ok q ∧ p ≤ q ∧ q ≤ stop := by
  have hthere : (mem.drop p)[stop - p]? = some c := by
    rw [List.getElem?_drop, Nat.add_sub_cancel' hle, hstop]
  cases hfirst : (mem.drop p).findIdx? wanted with
  | none =>
      have hnone := List.findIdx?_eq_none_iff.mp hfirst c (List.mem_of_getElem? hthere)
      rw [hc] at hnone
      cases hnone
  | some i =>
      obtain ⟨_, -, hbefore⟩ := List.findIdx?_eq_some_iff_getElem.mp hfirst
      refine ⟨p + i, by rw [seek, hfirst], Nat.le_add_right p i, ?_⟩
      by_contra hlt
      obtain ⟨_, hget⟩ := List.getElem?_eq_some_iff.mp hthere
      have hnot := hbefore (stop - p) (by omega)
      rw [hget, hc] at hnot
      exact hnot rfl

theorem nul_set {mem : Bytes} {q : Nat} (hq : mem[q]? = some 0) (p : Nat) :
    (mem.set p 0)[q]? = some 0 := by
  rw [List.getElem?_set]
  split
  · rename_i heq
    rw [if_pos (heq ▸ (List.getElem?_eq_some_iff.mp hq).choose)]
  · exact hq

theorem getElem?_middle : (front ++ (w ++ c :: tail))[front.length + w.length]? = some c := by
  rw [List.getElem?_append_right (by omega), List.getElem?_append_right (by omega)]
  simp

theorem set_middle (b : UInt8) : (front ++ (w ++ c :: tail)).set (front.length + w.length) b =
    front ++ (w ++ b :: tail) := by
  rw [List.set_append_right _ _ (by omega), List.set_append_right _ _ (by omega)]
  simp

theorem textAt_middle (hw : (0 : UInt8) ∉ w) :
    textAt (front ++ (w ++ 0 :: tail)) front.length = .ofBytes w := by
  have hall : ∀ b ∈ w, (b != 0) = true := fun b hb => bne_iff_ne.mpr fun h => hw (h ▸ hb)
  apply CString.ext
  rw [textAt_bytes, List.drop_left, List.takeWhile_append_of_pos hall, CString.ofBytes_bytes hw]
  simp

end

/-! ## Strings in the front part -/

/-- The string at `p` ends within `front`. -/
def Settled (front : Bytes) (p : Nat) : Prop := 0 ∈ front.drop p

theorem Settled.append {front : Bytes} {p : Nat} (h : Settled front p) (tail : Bytes) :
    Settled (front ++ tail) p := by
  rw [Settled, List.drop_append]
  exact List.mem_append_left _ h

theorem Settled.textAt_append {front : Bytes} {p : Nat} (h : Settled front p) (tail : Bytes) :
    textAt (front ++ tail) p = textAt front p := by
  have hle : p ≤ front.length := by
    by_contra hlt
    rw [Settled, List.drop_of_length_le (by omega)] at h
    cases h
  apply CString.ext
  rw [textAt_bytes, textAt_bytes, List.drop_append_of_le_length hle, List.takeWhile_append, if_neg]
  intro hall
  have hsame := (List.takeWhile_prefix (· != 0) (l := front.drop p)).eq_of_length hall
  have hnul := List.takeWhile_eq_self_iff.mp hsame 0 h
  simp at hnul

theorem settled_middle {front w : Bytes} {p : Nat} (hp : p ≤ front.length + w.length) :
    Settled (front ++ (w ++ [0])) p := by
  rw [Settled, ← List.append_assoc,
    List.drop_append_of_le_length (by simpa using hp)]
  exact List.mem_append_right _ List.mem_cons_self

/-! ## Cutting at the first of its kind -/

/-- What stands before the first `d`, or everything. -/
def before (d : UInt8) (w : Bytes) : Bytes := w.takeWhile (· != d)

/-- What stands behind the first `d`, if there is one. -/
def after (d : UInt8) (w : Bytes) : Bytes := (w.dropWhile (· != d)).tail

theorem not_mem_before (d : UInt8) (w : Bytes) : d ∉ before d w := by
  intro h
  have hne := List.mem_takeWhile_imp h
  simp at hne

theorem before_of_not_mem {d : UInt8} {w : Bytes} (h : d ∉ w) : before d w = w := by
  apply List.takeWhile_eq_self_iff.mpr
  exact fun b hb => bne_iff_ne.mpr fun heq => h (heq ▸ hb)

theorem after_of_not_mem {d : UInt8} {w : Bytes} (h : d ∉ w) : after d w = [] := by
  have hnil : w.dropWhile (· != d) = [] := by
    apply List.dropWhile_eq_nil_iff.mpr
    exact fun b hb => bne_iff_ne.mpr fun heq => h (heq ▸ hb)
  rw [after, hnil, List.tail_nil]

theorem before_append_after {d : UInt8} {w : Bytes} (h : d ∈ w) :
    before d w ++ d :: after d w = w := by
  induction w with
  | nil => cases h
  | cons c rest ih =>
      by_cases hc : c = d
      · simp [before, after, hc]
      · have hrest := ih ((List.mem_cons.mp h).resolve_left fun heq => hc heq.symm)
        simpa [before, after, hc] using hrest

/-- The text with its first `d` overwritten. -/
def cut (d : UInt8) (w : Bytes) : Bytes := if d ∈ w then before d w ++ 0 :: after d w else w

theorem cut_length (d : UInt8) (w : Bytes) : (cut d w).length = w.length := by
  unfold cut
  split
  · rename_i hd
    have hlength := congrArg List.length (before_append_after hd)
    simpa using hlength
  · rfl

theorem not_mem_after {c d : UInt8} {w : Bytes} (hc : c ∉ w) : c ∉ after d w :=
  fun h => hc ((List.dropWhile_sublist _).mem (List.mem_of_mem_tail h))

theorem not_mem_before_of {c d : UInt8} {w : Bytes} (hc : c ∉ w) : c ∉ before d w :=
  fun h => hc ((List.takeWhile_sublist _).mem h)

section
variable {front w tail : Bytes} {d : UInt8} (hw : (0 : UInt8) ∉ w)
include hw

theorem textAt_before : textAt (front ++ (cut d w ++ 0 :: tail)) front.length =
    .ofBytes (before d w) := by
  unfold cut
  split
  · rw [List.append_assoc]
    exact textAt_middle (not_mem_before_of hw)
  · rename_i hd
    rw [textAt_middle hw, before_of_not_mem hd]

theorem textAt_after (hafter : after d w ≠ []) :
    textAt (front ++ (cut d w ++ 0 :: tail)) (front.length + (before d w).length + 1) =
      .ofBytes (after d w) := by
  have hd : d ∈ w := by
    by_contra hd
    exact hafter (after_of_not_mem hd)
  have hsplit : front ++ (cut d w ++ 0 :: tail) =
      (front ++ (before d w ++ [0])) ++ (after d w ++ 0 :: tail) := by
    simp [cut, hd]
  have hpos : front.length + (before d w).length + 1 = (front ++ (before d w ++ [0])).length := by
    simp [Nat.add_assoc]
  rw [hsplit, hpos]
  exact textAt_middle (not_mem_after hw)

end

end CLib
