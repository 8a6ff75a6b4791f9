import Neb2Amqp.Events.Texts

/-!
# The pieces of a text

What the loop for a text takes of it, told from the text and from `left`: the bytes that stand at
`k * (left - 1)`, for as many `k` as the division of the length by `left` gives, and one more.
-/

namespace Neb2Amqp

open CLib

section
variable (c : ServiceCheckData) (left : Int) (field : TextField)

/-- The length is divided as an `int`, and `INT_MAX` has no room for one more. -/
def pieceCount : Nat :=
  let quotient := (toInt (xstrlen (c.text field))).toInt.tdiv left
  if quotient = 2 ^ 31 - 1 then 0 else (quotient + 1).toNat

/-- Of NULL the pieces are those of what is printed for it. -/
def piece (k : Nat) : CString :=
  (((c.text field).getD .nullText).drop (k * (left.toNat - 1))).take (left.toNat - 1)

/-- The piece itself and, of every text that had a piece before, the last one. -/
def piecesAt (k : Nat) : Texts := fun other =>
  if other = field then some (piece c left field k)
  else if other.place < field.place ∧ 0 < pieceCount c left other then
    some (piece c left other (pieceCount c left other - 1))
  else none

end

theorem piece_bytes {c : ServiceCheckData} {field : TextField} {text : CString}
    (htext : c.text field = some text) (left : Int) (k : Nat) :
    (piece c left field k).bytes = chunkAt (left.toNat - 1) text.bytes k := by
  rw [piece, htext]
  rfl

section
variable {c : ServiceCheckData} {left : Int32} {field : TextField}

theorem rounds_eq_pieceCount (hleft : 1 ≤ left.toInt) :
    rounds c left field = pieceCount c left.toInt field := by
  unfold rounds pieceCount
  rw [toInt_succ, toInt_div_of_pos hleft]
  simp only []
  split
  · rfl
  · rfl

theorem chunk_eq_piece (hleft : 1 ≤ left.toInt) {k : Nat} (hk : k < rounds c left field) :
    chunk c left field k = piece c left.toInt field k := by
  by_cases hone : left.toInt = 1
  · -- chunks without a byte
    apply CString.ext
    rw [chunk, chunkOf, CString.snprintfS, piece, hone]
    rfl
  have hwide : 2 ≤ left.toInt := by omega
  apply CString.ext
  cases htext : c.text field with
  | some text => rw [chunk_bytes hwide htext hk, piece_bytes htext]
  | none =>
      rw [rounds_null hwide htext] at hk
      obtain rfl : k = 0 := by omega
      rw [chunk_null htext, piece, htext, Nat.zero_mul]
      rfl

theorem layerAt_eq_piecesAt (hleft : 1 ≤ left.toInt) {k : Nat} (hk : k < rounds c left field) :
    layerAt c left field k = piecesAt c left.toInt field k := by
  funext other
  unfold piecesAt
  by_cases hother : other = field
  · subst hother
    rw [if_pos rfl, layerAt, Texts.set_self, chunk_eq_piece hleft hk]
  rw [if_neg hother, layerAt, Texts.set_of_ne hother, layerBefore, ← rounds_eq_pieceCount hleft]
  by_cases hplace : other.place < field.place
  · rw [if_pos hplace, lastChunk]
    by_cases hzero : rounds c left other = 0
    · simp [hzero]
    · have hpos := Nat.pos_of_ne_zero hzero
      rw [if_neg hzero, if_pos ⟨hplace, hpos⟩, chunk_eq_piece hleft (Nat.sub_lt hpos Nat.one_pos)]
  · rw [if_neg hplace, if_neg fun h => hplace h.1]

theorem mem_plan_pieces (hleft : 1 ≤ left.toInt) {layer : TextField × Texts} :
    layer ∈ plan c left ↔ ∃ field k, k < pieceCount c left.toInt field ∧
      layer = (field, piecesAt c left.toInt field k) := by
  rw [mem_plan]
  refine exists_congr fun field => exists_congr fun k => ?_
  rw [rounds_eq_pieceCount hleft]
  refine and_congr_right fun hk => ?_
  rw [layerAt_eq_piecesAt hleft (rounds_eq_pieceCount hleft ▸ hk)]

end

end Neb2Amqp
