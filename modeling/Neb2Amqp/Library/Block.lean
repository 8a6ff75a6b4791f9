import Neb2Amqp.Library.Buffer

/-!
# Blocks of the heap

A block is the list of its bytes. What `realloc` adds to one is not initialised, so
that a function gives it. A copy that would leave the block is stuck.
-/

namespace CLib

/-- The block `realloc` returns for `old`, where NULL is the block without a byte. -/
def realloc (fill : Nat → UInt8) (old : Bytes) (size : Nat) : Bytes :=
  old.take size ++ (List.range (size - old.length)).map fill

/-- `strcpy (block + offset, text)`, with the NUL it writes behind the text. -/
def strcpy (block : Bytes) (offset : Nat) (text : CString) : Except Stuck Bytes :=
  if offset + text.strlen + 1 ≤ block.length then
    .ok (block.take offset ++ (text.bytes ++ 0 :: block.drop (offset + text.strlen + 1)))
  else .error .outside

theorem realloc_length (fill : Nat → UInt8) (old : Bytes) (size : Nat) :
    (realloc fill old size).length = size := by
  rw [realloc, List.length_append, List.length_take, List.length_map, List.length_range]
  omega

theorem realloc_take (fill : Nat → UInt8) {old : Bytes} {size n : Nat} (hold : n ≤ old.length)
    (hsize : n ≤ size) : (realloc fill old size).take n = old.take n := by
  have hroom : n ≤ (old.take size).length := by
    rw [List.length_take]
    omega
  rw [realloc, List.take_append_of_le_length hroom, List.take_take, Nat.min_eq_left hsize]

section
variable {block copied : Bytes} {offset : Nat} {text : CString}

theorem strcpy_inside_iff :
    (∃ copied, strcpy block offset text = .ok copied) ↔ offset + text.strlen + 1 ≤ block.length := by
  unfold strcpy
  split
  · rename_i hroom
    exact ⟨fun _ => hroom, fun _ => ⟨_, rfl⟩⟩
  · rename_i hroom
    constructor
    · rintro ⟨copied, h⟩
      cases h
    · exact fun h => absurd h hroom

variable (h : strcpy block offset text = .ok copied)
include h

theorem strcpy_eq : copied =
    block.take offset ++ (text.bytes ++ 0 :: block.drop (offset + text.strlen + 1)) := by
  unfold strcpy at h
  split at h
  · exact (Except.ok.inj h).symm
  · cases h

theorem strcpy_room : offset + text.strlen + 1 ≤ block.length := strcpy_inside_iff.mp ⟨copied, h⟩

theorem strcpy_take_length : (block.take offset).length = offset := by
  have hroom := strcpy_room h
  rw [List.length_take]
  omega

theorem strcpy_length : copied.length = block.length := by
  have hroom := strcpy_room h
  have hfront := strcpy_take_length h
  have hlength : text.bytes.length = text.strlen := rfl
  rw [strcpy_eq h, List.length_append, List.length_append, List.length_cons, List.length_drop,
    hfront, hlength]
  omega

theorem strcpy_take {n : Nat} (hn : n ≤ text.strlen) :
    copied.take (offset + n) = block.take offset ++ text.bytes.take n := by
  have hfront := strcpy_take_length h
  rw [strcpy_eq h, List.take_append, List.take_of_length_le (by omega), hfront,
    Nat.add_sub_cancel_left, List.take_append_of_le_length hn]

theorem strcpy_text (hnul : (0 : UInt8) ∉ block.take offset) :
    (textAt copied 0).bytes = block.take offset ++ text.bytes := by
  have hfree : (0 : UInt8) ∉ block.take offset ++ text.bytes :=
    fun hmem => (List.mem_append.mp hmem).elim hnul text.nulFree
  have hmiddle : textAt ([] ++ (block.take offset ++ text.bytes ++
      0 :: block.drop (offset + text.strlen + 1))) ([] : Bytes).length =
      .ofBytes (block.take offset ++ text.bytes) := textAt_middle hfree
  rw [List.nil_append, List.length_nil] at hmiddle
  rw [strcpy_eq h, ← List.append_assoc, hmiddle, CString.ofBytes_bytes hfree]

end

/-- As far as the string in a block reaches, the block is the string. -/
theorem take_textAt {block : Bytes} {n : Nat} (hn : n ≤ (textAt block 0).strlen) :
    block.take n = (textAt block 0).bytes.take n := by
  obtain ⟨rest, hrest⟩ := List.takeWhile_prefix (· != 0) (l := block)
  have hbytes : (textAt block 0).bytes = block.takeWhile (· != 0) := rfl
  rw [CString.strlen, hbytes] at hn
  rw [hbytes, ← hrest, List.take_append_of_le_length hn]
  rw [hrest]

theorem strlen_textAt_le (block : Bytes) : (textAt block 0).strlen ≤ block.length :=
  (List.takeWhile_prefix _).length_le

end CLib
