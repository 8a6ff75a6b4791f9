import Mathlib.Data.List.GetD
import Neb2Amqp.Library.CString

/-!
# UTF-8 as the bundled jansson checks it

`utf.c`. A sequence that would run past the terminator is cut off by it, since
the terminator is no continuation byte.
-/

namespace Neb2Amqp

open CLib

def utf8CheckFirst (u : UInt8) : Nat :=
  if u < 0x80 then 1
  else if u ≤ 0xBF then 0
  else if u = 0xC0 ∨ u = 0xC1 then 0
  else if u ≤ 0xDF then 2
  else if u ≤ 0xEF then 3
  else if u ≤ 0xF4 then 4
  else 0

/-- The code point of a sequence of `size` bytes, if it is a proper one. -/
def utf8CheckFull (buffer : Bytes) (size : Nat) : Option Nat :=
  let lead := (buffer.headD 0).toNat
  let start := if size = 2 then lead % 32 else if size = 3 then lead % 16 else lead % 8
  let tail := (buffer ++ List.replicate size 0).tail.take (size - 1)
  let value := tail.foldl (fun value u => value * 64 + u.toNat % 64) start
  if size ≠ 2 ∧ size ≠ 3 ∧ size ≠ 4 then none
  else if tail.any fun u => u < 0x80 ∨ u > 0xBF then none
  else if value > 0x10FFFF then none
  else if 0xD800 ≤ value ∧ value ≤ 0xDFFF then none
  else if (size = 2 ∧ value < 0x80) ∨ (size = 3 ∧ value < 0x800) ∨ (size = 4 ∧ value < 0x10000) then
    none
  else some value

/-- The code point a text starts with and the bytes it takes. -/
def utf8Iterate (buffer : Bytes) : Option (Nat × Nat) :=
  let count := utf8CheckFirst (buffer.headD 0)
  if count = 0 then none
  else if count = 1 then some ((buffer.headD 0).toNat, 1)
  else (utf8CheckFull buffer count).map fun value => (value, count)

/-- The loop of `utf8_check_string` over the bytes that are left. -/
def utf8CheckLoop : Nat → Bytes → Bool
  | 0, _ => true
  | _ + 1, [] => true
  | fuel + 1, u :: rest =>
      let count := utf8CheckFirst u
      if count = 0 then false
      else if count = 1 then utf8CheckLoop fuel rest
      else if (u :: rest).length < count then false
      else if (utf8CheckFull (u :: rest) count).isNone then false
      else utf8CheckLoop fuel ((u :: rest).drop count)

/-- Every round takes at least one byte, so as many rounds as bytes suffice. -/
def utf8CheckString (s : CString) : Bool := utf8CheckLoop s.bytes.length s.bytes

/-! ## One character -/

def Continuation (u : UInt8) : Prop := 0x80 ≤ u ∧ u ≤ 0xBF

instance : DecidablePred Continuation := fun _ => inferInstanceAs (Decidable (_ ∧ _))

theorem utf8CheckFull_of_short {buffer : Bytes} {size : Nat} (hne : buffer ≠ [])
    (hshort : buffer.length < size) : utf8CheckFull buffer size = none := by
  have hterminator : (0 : UInt8) ∈
      (buffer ++ List.replicate size 0).tail.take (size - 1) := by
    obtain ⟨u, rest, rfl⟩ := List.exists_cons_of_ne_nil hne
    simp only [List.length_cons] at hshort
    have hlen : rest.length < ((rest ++ List.replicate size 0).take (size - 1)).length := by
      simp only [List.length_take, List.length_append, List.length_replicate]
      omega
    apply List.mem_of_getElem (i := rest.length) (h := hlen)
    simp [List.getElem_take, List.getElem_append_right]
  have hany : ((buffer ++ List.replicate size 0).tail.take (size - 1)).any
      (fun u => decide (u < 0x80 ∨ u > 0xBF)) = true :=
    List.any_eq_true.mpr ⟨0, hterminator, by decide⟩
  unfold utf8CheckFull
  simp only [hany, if_true]
  split <;> rfl

theorem utf8CheckFull_take {buffer : Bytes} {size n : Nat} (hsize : 1 ≤ size) (hn : size ≤ n)
    (hbuffer : size ≤ buffer.length) :
    utf8CheckFull (buffer.take n) size = utf8CheckFull buffer size := by
  obtain ⟨u, rest, rfl⟩ := List.exists_cons_of_length_pos (Nat.lt_of_lt_of_le hsize hbuffer)
  obtain ⟨n, rfl⟩ := Nat.exists_eq_succ_of_ne_zero (show n ≠ 0 by omega)
  have hrest : size - 1 ≤ rest.length := by
    rw [List.length_cons] at hbuffer
    omega
  have htail : ∀ text : Bytes, size - 1 ≤ text.length →
      (text ++ List.replicate size 0).take (size - 1) = text.take (size - 1) :=
    fun text h => List.take_append_of_le_length h
  have htake : size - 1 ≤ (rest.take n).length := by
    rw [List.length_take]
    omega
  have hsame : (rest.take n).take (size - 1) = rest.take (size - 1) := by
    rw [List.take_take, Nat.min_eq_left (by omega)]
  unfold utf8CheckFull
  simp only [List.take_succ_cons, List.headD_cons, List.cons_append, List.tail_cons,
    htail _ htake, htail _ hrest, hsame]

theorem utf8CheckFull_continuation {buffer : Bytes} {size value : Nat}
    (h : utf8CheckFull buffer size = some value) (hsize : size ≤ buffer.length) {i : Nat}
    (hpos : 1 ≤ i) (hi : i < size) : Continuation (buffer.getD i 0) := by
  obtain ⟨u, rest, rfl⟩ := List.exists_cons_of_length_pos (show 0 < buffer.length by omega)
  obtain ⟨i, rfl⟩ := Nat.exists_eq_succ_of_ne_zero (show i ≠ 0 by omega)
  rw [List.length_cons] at hsize
  have hall : ¬ (((u :: rest) ++ List.replicate size 0).tail.take (size - 1)).any
      (fun u => decide (u < 0x80 ∨ u > 0xBF)) = true := by
    intro hany
    unfold utf8CheckFull at h
    simp only [hany, if_true] at h
    split at h <;> cases h
  rw [List.cons_append, List.tail_cons, List.take_append_of_le_length (by omega)] at hall
  have hget : (u :: rest).getD (i + 1) 0 = rest[i] := by
    rw [List.getD_cons_succ]
    exact List.getD_eq_getElem rest 0 (by omega)
  have hmem : rest[i] ∈ rest.take (size - 1) := by
    apply List.mem_take_iff_getElem.mpr
    exact ⟨i, by omega, rfl⟩
  have hnot : ¬ (rest[i] < 0x80 ∨ rest[i] > 0xBF) := fun hbad =>
    hall (List.any_eq_true.mpr ⟨_, hmem, decide_eq_true hbad⟩)
  rw [hget]
  exact ⟨UInt8.not_lt.mp fun hlow => hnot (.inl hlow), UInt8.not_lt.mp fun hhigh => hnot (.inr hhigh)⟩

/-- What `utf8_iterate` finds at the beginning of a text. -/
structure Starts (buffer : Bytes) (count : Nat) : Prop where
  pos : 1 ≤ count
  le : count ≤ buffer.length
  first : ¬ Continuation (buffer.getD 0 0)
  others : ∀ i, 1 ≤ i → i < count → Continuation (buffer.getD i 0)

theorem utf8CheckFirst_of_continuation {u : UInt8} (h : Continuation u) : utf8CheckFirst u = 0 := by
  have hnot : ¬ u < 0x80 := UInt8.not_lt.mpr h.1
  rw [utf8CheckFirst, if_neg hnot, if_pos h.2]

theorem utf8Iterate_eq_some_iff {buffer : Bytes} {codepoint count : Nat} :
    utf8Iterate buffer = some (codepoint, count) ↔
      utf8CheckFirst (buffer.headD 0) = count ∧
        ((count = 1 ∧ (buffer.headD 0).toNat = codepoint) ∨
          (2 ≤ count ∧ utf8CheckFull buffer count = some codepoint)) := by
  unfold utf8Iterate
  generalize utf8CheckFirst (buffer.headD 0) = size
  by_cases h0 : size = 0
  · subst h0
    simp only [if_true, reduceCtorEq, false_iff]
    rintro ⟨rfl, ⟨hone, -⟩ | ⟨htwo, -⟩⟩
    · omega
    · omega
  by_cases h1 : size = 1
  · subst h1
    simp only [Nat.one_ne_zero, if_false, if_true, Option.some.injEq, Prod.mk.injEq]
    constructor
    · rintro ⟨rfl, rfl⟩
      exact ⟨rfl, .inl ⟨rfl, rfl⟩⟩
    · rintro ⟨rfl, ⟨-, rfl⟩ | ⟨htwo, -⟩⟩
      · exact ⟨rfl, rfl⟩
      · omega
  · simp only [h0, h1, if_false, Option.map_eq_some_iff, Prod.mk.injEq]
    constructor
    · rintro ⟨value, hfull, rfl, rfl⟩
      exact ⟨rfl, .inr ⟨by omega, hfull⟩⟩
    · rintro ⟨rfl, ⟨hone, -⟩ | ⟨-, hfull⟩⟩
      · exact absurd hone h1
      · exact ⟨codepoint, hfull, rfl, rfl⟩

theorem utf8Iterate_starts {buffer : Bytes} {codepoint count : Nat} (hne : buffer ≠ [])
    (h : utf8Iterate buffer = some (codepoint, count)) : Starts buffer count := by
  obtain ⟨u, rest, rfl⟩ := List.exists_cons_of_ne_nil hne
  obtain ⟨hcount, hcases⟩ := utf8Iterate_eq_some_iff.mp h
  have hfirst : count ≠ 0 → ¬ Continuation ((u :: rest).getD 0 0) :=
    fun hzero hcontinuation => hzero (hcount ▸ utf8CheckFirst_of_continuation hcontinuation)
  rcases hcases with ⟨rfl, -⟩ | ⟨htwo, hfull⟩
  · refine ⟨le_rfl, by simp, hfirst (by omega), fun i hpos hi => ?_⟩
    omega
  · have hle : count ≤ (u :: rest).length := by
      by_contra hshort
      rw [utf8CheckFull_of_short (List.cons_ne_nil u rest) (Nat.lt_of_not_le hshort)] at hfull
      cases hfull
    exact ⟨by omega, hle, hfirst (by omega),
      fun i hpos hi => utf8CheckFull_continuation hfull hle hpos hi⟩

theorem utf8Iterate_take {buffer : Bytes} {codepoint count n : Nat} (hne : buffer ≠ [])
    (h : utf8Iterate buffer = some (codepoint, count)) (hn : count ≤ n) :
    utf8Iterate (buffer.take n) = some (codepoint, count) := by
  have hstarts := utf8Iterate_starts hne h
  have hpos := hstarts.pos
  obtain ⟨hcount, hcases⟩ := utf8Iterate_eq_some_iff.mp h
  have hhead : (buffer.take n).headD 0 = buffer.headD 0 := by
    obtain ⟨u, rest, rfl⟩ := List.exists_cons_of_ne_nil hne
    obtain ⟨n, rfl⟩ := Nat.exists_eq_succ_of_ne_zero (show n ≠ 0 by omega)
    rfl
  rw [utf8Iterate_eq_some_iff, hhead, utf8CheckFull_take hpos hn hstarts.le]
  exact ⟨hcount, hcases⟩

theorem utf8Iterate_take_none {buffer : Bytes} {codepoint count n : Nat} (hne : buffer ≠ [])
    (h : utf8Iterate buffer = some (codepoint, count)) (hpos : 1 ≤ n) (hn : n < count) :
    utf8Iterate (buffer.take n) = none := by
  obtain ⟨hcount, -⟩ := utf8Iterate_eq_some_iff.mp h
  obtain ⟨u, rest, rfl⟩ := List.exists_cons_of_ne_nil hne
  obtain ⟨n, rfl⟩ := Nat.exists_eq_succ_of_ne_zero (show n ≠ 0 by omega)
  have hshort : ((u :: rest).take (n + 1)).length < count :=
    Nat.lt_of_le_of_lt (List.length_take_le _ _) hn
  have hfull := utf8CheckFull_of_short (List.cons_ne_nil u (rest.take n)) hshort
  cases hcut : utf8Iterate ((u :: rest).take (n + 1)) with
  | none => rfl
  | some character =>
      obtain ⟨codepoint', count'⟩ := character
      obtain ⟨hcount', hcases⟩ := utf8Iterate_eq_some_iff.mp hcut
      obtain rfl : count = count' := hcount.symm.trans hcount'
      rcases hcases with ⟨hone, -⟩ | ⟨-, hsome⟩
      · omega
      · exact absurd (hfull.symm.trans hsome) (by simp)

/-! ## A whole text -/

theorem utf8CheckLoop_cons (fuel : Nat) (u : UInt8) (rest : Bytes) :
    utf8CheckLoop (fuel + 1) (u :: rest) =
      (utf8Iterate (u :: rest)).elim false fun character =>
        utf8CheckLoop fuel ((u :: rest).drop character.2) := by
  simp only [utf8CheckLoop, utf8Iterate, List.headD_cons]
  by_cases h0 : utf8CheckFirst u = 0
  · simp [h0]
  by_cases h1 : utf8CheckFirst u = 1
  · simp [h1]
  by_cases hshort : (u :: rest).length < utf8CheckFirst u
  · simp [h0, h1, utf8CheckFull_of_short (List.cons_ne_nil u rest) hshort]
  · have henough : utf8CheckFirst u ≤ rest.length + 1 := Nat.le_of_not_lt hshort
    cases hfull : utf8CheckFull (u :: rest) (utf8CheckFirst u) with
    | none => simp [h0, h1]
    | some value => simp [h0, h1, henough]

/-- More rounds than bytes make no difference. -/
theorem utf8CheckLoop_fuel {fuel : Nat} {buffer : Bytes} (hfuel : buffer.length ≤ fuel) :
    utf8CheckLoop fuel buffer = utf8CheckLoop buffer.length buffer := by
  induction fuel using Nat.strong_induction_on generalizing buffer with
  | h fuel ih =>
      cases buffer with
      | nil => cases fuel <;> rfl
      | cons u rest =>
          obtain ⟨fuel, rfl⟩ := Nat.exists_eq_succ_of_ne_zero
            (Nat.ne_of_gt (Nat.lt_of_lt_of_le (Nat.succ_pos rest.length) hfuel))
          rw [List.length_cons] at hfuel
          rw [List.length_cons, utf8CheckLoop_cons, utf8CheckLoop_cons]
          cases hiterate : utf8Iterate (u :: rest) with
          | none => rfl
          | some character =>
              obtain ⟨codepoint, count⟩ := character
              have hpos := (utf8Iterate_starts (List.cons_ne_nil u rest) hiterate).pos
              have hlength : ((u :: rest).drop count).length ≤ rest.length := by
                rw [List.length_drop, List.length_cons]
                omega
              have hmore := ih fuel (Nat.lt_succ_self fuel)
                (Nat.le_trans hlength (Nat.le_of_succ_le_succ hfuel))
              have hless := ih rest.length (Nat.lt_of_lt_of_le (Nat.lt_succ_self _) hfuel) hlength
              exact hmore.trans hless.symm

/-- A text is UTF-8 as far as it goes. -/
def Proper (buffer : Bytes) : Prop := utf8CheckLoop buffer.length buffer = true

instance : DecidablePred Proper := fun _ => inferInstanceAs (Decidable (_ = true))

theorem utf8CheckString_iff {s : CString} : utf8CheckString s = true ↔ Proper s.bytes := .rfl

theorem proper_nil : Proper [] := rfl

/-- A text that is not empty is a character and a text. -/
theorem proper_iff {buffer : Bytes} (hne : buffer ≠ []) :
    Proper buffer ↔ ∃ codepoint count, utf8Iterate buffer = some (codepoint, count) ∧
      Proper (buffer.drop count) := by
  obtain ⟨u, rest, rfl⟩ := List.exists_cons_of_ne_nil hne
  rw [Proper, List.length_cons, utf8CheckLoop_cons]
  cases hiterate : utf8Iterate (u :: rest) with
  | none => simp
  | some character =>
      obtain ⟨codepoint, count⟩ := character
      have hpos := (utf8Iterate_starts hne hiterate).pos
      have hlength : ((u :: rest).drop count).length ≤ rest.length := by
        rw [List.length_drop, List.length_cons]
        omega
      change utf8CheckLoop rest.length ((u :: rest).drop count) = true ↔ _
      rw [utf8CheckLoop_fuel hlength]
      constructor
      · intro hrest
        exact ⟨codepoint, count, rfl, hrest⟩
      · rintro ⟨codepoint', count', hsame, hrest⟩
        cases hsame
        exact hrest

/-! ## Cutting a text -/

theorem Proper.drop {buffer : Bytes} (h : Proper buffer) {n : Nat}
    (hn : ¬ Continuation (buffer.getD n 0)) : Proper (buffer.drop n) := by
  induction hlength : buffer.length using Nat.strong_induction_on generalizing buffer n with
  | h length ih =>
      by_cases hne : buffer = []
      · subst hne
        rw [List.drop_nil]
        exact proper_nil
      by_cases hzero : n = 0
      · subst hzero
        exact h
      obtain ⟨codepoint, count, hiterate, hrest⟩ := (proper_iff hne).mp h
      have hstarts := utf8Iterate_starts hne hiterate
      have hcount : count ≤ n := by
        by_contra hinside
        exact hn (hstarts.others n (Nat.pos_of_ne_zero hzero) (Nat.lt_of_not_le hinside))
      have hsplit : n = count + (n - count) := by omega
      have hget : (buffer.drop count).getD (n - count) 0 = buffer.getD n 0 := by
        rw [List.getD_eq_getElem?_getD, List.getElem?_drop, ← hsplit, ← List.getD_eq_getElem?_getD]
      have hshorter : (buffer.drop count).length < length := by
        have hpos := hstarts.pos
        have hle := hstarts.le
        rw [List.length_drop]
        omega
      rw [hsplit, ← List.drop_drop]
      exact ih _ hshorter hrest (hget ▸ hn) rfl

theorem proper_take_iff {buffer : Bytes} (h : Proper buffer) (n : Nat) :
    Proper (buffer.take n) ↔ (n < buffer.length → ¬ Continuation (buffer.getD n 0)) := by
  induction hlength : buffer.length using Nat.strong_induction_on generalizing buffer n with
  | h length ih =>
      by_cases hlong : buffer.length ≤ n
      · rw [List.take_of_length_le hlong]
        exact iff_of_true h fun hlt => absurd hlt (by omega)
      have hne : buffer ≠ [] := by
        rintro rfl
        exact hlong (Nat.zero_le n)
      obtain ⟨codepoint, count, hiterate, hrest⟩ := (proper_iff hne).mp h
      have hstarts := utf8Iterate_starts hne hiterate
      by_cases hzero : n = 0
      · subst hzero
        exact iff_of_true proper_nil fun _ => hstarts.first
      have htake : buffer.take n ≠ [] := by
        intro hnil
        rcases List.take_eq_nil_iff.mp hnil with hn | hempty
        · exact hzero hn
        · exact hne hempty
      by_cases hinside : n < count
      · have hnone := utf8Iterate_take_none hne hiterate (Nat.pos_of_ne_zero hzero) hinside
        have hmiddle := hstarts.others n (Nat.pos_of_ne_zero hzero) hinside
        refine iff_of_false ?_ fun hall => hall (by omega) hmiddle
        intro hproper
        obtain ⟨_, _, hsome, -⟩ := (proper_iff htake).mp hproper
        rw [hnone] at hsome
        cases hsome
      · have hcount : count ≤ n := Nat.le_of_not_lt hinside
        have hsame := utf8Iterate_take hne hiterate hcount
        have hsplit : n = count + (n - count) := by omega
        have hget : (buffer.drop count).getD (n - count) 0 = buffer.getD n 0 := by
          rw [List.getD_eq_getElem?_getD, List.getElem?_drop, ← hsplit,
            ← List.getD_eq_getElem?_getD]
        have hshorter : (buffer.drop count).length < length := by
          have hpos := hstarts.pos
          have hle := hstarts.le
          rw [List.length_drop]
          omega
        have hbounds : n - count < (buffer.drop count).length ↔ n < length := by
          rw [List.length_drop]
          omega
        have hlater := ih _ hshorter hrest (n - count) rfl
        rw [hget, hbounds, ← List.drop_take] at hlater
        rw [← hlater, proper_iff htake]
        constructor
        · rintro ⟨codepoint', count', hsome, hproper⟩
          rw [hsame] at hsome
          cases hsome
          exact hproper
        · intro hproper
          exact ⟨codepoint, count, hsame, hproper⟩

end Neb2Amqp
