import Neb2Amqp.Arguments.Fields

/-!
# Fields while other tokens are cut

The calls of `n2a_next_field` on one cursor, with calls of `n2a_next_token` between them on
whatever pointers into the fields found so far. Cutting up a field stays in front of the
cursor, so that the fields are the words of the text as it was.
-/

namespace Neb2Amqp

open CLib

/-- `n2a_next_token` starts at a pointer that an earlier call gave back, by its number: a
field, a token, or the cursor that a token left. -/
inductive TokenizerCall
  | nextField
  | nextToken (k : Nat) (delim : UInt8)
  deriving DecidableEq

/-- The array, the cursor of the fields, where the fields returned so far begin, and all
pointers given back so far. -/
structure TokenizerState where
  mem : Bytes
  args : Option Nat
  starts : List Nat
  given : List Nat

/-- A call of `n2a_next_field`: what it returned, as it read then, and the cursor before
and after. -/
structure FieldCall where
  field : Option CString
  before : Option Nat
  args : Option Nat

/-- A pointer that is not there is not used. -/
def tokenizerStep (s : TokenizerState) :
    TokenizerCall → Except Stuck (List FieldCall × TokenizerState)
  | .nextField => do
      let (field, mem, args) ← n2aNextField s.mem s.args
      .ok ([⟨field.map (textAt mem), s.args, args⟩],
        ⟨mem, args, s.starts ++ field.toList, s.given ++ field.toList⟩)
  | .nextToken k delim =>
      match s.given[k]? with
      | none => .ok ([], s)
      | some p => do
          let (token, mem, c) ← n2aNextToken s.mem (some p) delim
          .ok ([], ⟨mem, s.args, s.starts, s.given ++ (token.toList ++ c.toList)⟩)

def tokenizerRun : List TokenizerCall → TokenizerState →
    Except Stuck (List FieldCall × TokenizerState)
  | [], s => .ok ([], s)
  | call :: calls, s => do
      let (found, s) ← tokenizerStep s call
      let (more, s) ← tokenizerRun calls s
      .ok (found ++ more, s)

/-! ## One token -/

/-- A token is cut off in front of any NUL behind its beginning, and the cursor stays there. -/
theorem n2aNextToken_between {mem : Bytes} {p stop : Nat} (hle : p ≤ stop)
    (hstop : mem[stop]? = some 0) (delim : UInt8) :
    ∃ (token : Option Nat) (mem' : Bytes) (c : Nat),
      n2aNextToken mem (some p) delim = .ok (token, mem', some c) ∧
      (∀ q : Nat, mem[q]? = some 0 → mem'[q]? = some 0) ∧
      (∀ q ∈ token.toList ++ [c], p ≤ q) ∧
      ∀ nul : Nat, p ≤ nul → mem[nul]? = some 0 →
        (∀ q ∈ token.toList ++ [c], q ≤ nul) ∧ mem'.drop nul = mem.drop nul := by
  by_cases hend : mem[p]? = some 0
  · refine ⟨none, mem, p, ?_, fun q hq => hq, by simp, fun nul hnul _ => ⟨by simpa, rfl⟩⟩
    simp [n2aNextToken, deref, bind, Except.bind, hend]
  · have hdelim : ∀ nul : Nat, p ≤ nul → mem[nul]? = some 0 →
        ∃ q, seek mem p (fun b => b == 0 || b == delim) = .ok q ∧ p ≤ q ∧ q ≤ nul :=
      fun nul hnul hthere => seek_le _ hnul hthere (by simp)
    obtain ⟨last, hseek, hfirst, -⟩ := hdelim stop hle hstop
    have hlast : ∀ nul : Nat, p ≤ nul → mem[nul]? = some 0 → last ≤ nul := by
      intro nul hnul hthere
      obtain ⟨q, hsame, -, hq⟩ := hdelim nul hnul hthere
      rw [hseek] at hsame
      cases hsame
      exact hq
    simp only [n2aNextToken, deref, bind, Except.bind, if_neg hend, hseek]
    by_cases hnul : mem[last]? = some 0
    · rw [if_pos hnul]
      refine ⟨_, _, _, rfl, fun q hq => hq, by simpa, fun nul hle hthere => ⟨?_, rfl⟩⟩
      simpa using ⟨hle, hlast nul hle hthere⟩
    · rw [if_neg hnul]
      refine ⟨_, _, _, rfl, fun q hq => nul_set hq last, ?_, fun nul hle hthere => ?_⟩
      · simp
        omega
      · -- the delimiter that is overwritten stands in front of the NUL
        have hlt : last < nul := by
          apply Nat.lt_of_le_of_ne (hlast nul hle hthere)
          rintro rfl
          exact hnul hthere
        exact ⟨by simpa using ⟨hle, hlt⟩, List.drop_set_of_lt hlt⟩

/-! ## What holds between the calls -/

/-- Every pointer given back stands in front of a NUL that the cursor has not passed, and of
one before each later field. -/
structure Pointers (mem : Bytes) (cursor : Nat) (starts given : List Nat) : Prop where
  known : starts ⊆ given
  stopped : ∀ p ∈ given, ∃ stop, p ≤ stop ∧ stop ≤ cursor ∧ mem[stop]? = some 0
  apart : ∀ p ∈ given, ∀ f ∈ starts, p < f → ∃ stop, p ≤ stop ∧ stop < f ∧ mem[stop]? = some 0

section
variable {mem mem' : Bytes} {cursor : Nat} {starts given : List Nat}
  (h : Pointers mem cursor starts given)
include h

theorem Pointers.mono {cursor' : Nat} (hle : cursor ≤ cursor') :
    Pointers mem cursor' starts given where
  known := h.known
  stopped := by
    intro p hp
    obtain ⟨stop, hpstop, hstop, hnul⟩ := h.stopped p hp
    exact ⟨stop, hpstop, Nat.le_trans hstop hle, hnul⟩
  apart := h.apart

theorem Pointers.token {p : Nat} {more : List Nat} (hp : p ∈ given)
    (hkeep : ∀ q : Nat, mem[q]? = some 0 → mem'[q]? = some 0) (hfrom : ∀ q ∈ more, p ≤ q)
    (hto : ∀ nul : Nat, p ≤ nul → mem[nul]? = some 0 → ∀ q ∈ more, q ≤ nul) :
    Pointers mem' cursor starts (given ++ more) where
  known := List.subset_append_of_subset_left more h.known
  stopped := by
    intro q hq
    rcases List.mem_append.mp hq with hold | hnew
    · obtain ⟨stop, hle, hstop, hnul⟩ := h.stopped q hold
      exact ⟨stop, hle, hstop, hkeep stop hnul⟩
    · obtain ⟨stop, hle, hstop, hnul⟩ := h.stopped p hp
      exact ⟨stop, hto stop hle hnul q hnew, hstop, hkeep stop hnul⟩
  apart := by
    intro q hq f hf hlt
    rcases List.mem_append.mp hq with hold | hnew
    · obtain ⟨stop, hle, hstop, hnul⟩ := h.apart q hold f hf hlt
      exact ⟨stop, hle, hstop, hkeep stop hnul⟩
    · have hpq := hfrom q hnew
      obtain ⟨stop, hle, hstop, hnul⟩ := h.apart p hp f hf (by omega)
      exact ⟨stop, hto stop hle hnul q hnew, hstop, hkeep stop hnul⟩

theorem Pointers.field {f stop : Nat} (hf : cursor ≤ f) (hfirst : mem[f]? ≠ some 0) (hle : f ≤ stop)
    (hkeep : ∀ q : Nat, mem[q]? = some 0 → mem'[q]? = some 0) (hstop : mem'[stop]? = some 0) :
    Pointers mem' stop (starts ++ [f]) (given ++ [f]) where
  known := List.append_subset.mpr
    ⟨List.subset_append_of_subset_left _ h.known, List.subset_append_right _ _⟩
  stopped := by
    intro q hq
    rcases List.mem_append.mp hq with hold | hnew
    · obtain ⟨nul, hqnul, hnulle, hnul⟩ := h.stopped q hold
      exact ⟨nul, hqnul, by omega, hkeep nul hnul⟩
    · obtain rfl : q = f := by simpa using hnew
      exact ⟨stop, hle, Nat.le_refl stop, hstop⟩
  apart := by
    intro q hq g hg hlt
    rcases List.mem_append.mp hq with hold | hnew
    · rcases List.mem_append.mp hg with hgold | hgnew
      · obtain ⟨nul, hqnul, hnulle, hnul⟩ := h.apart q hold g hgold hlt
        exact ⟨nul, hqnul, hnulle, hkeep nul hnul⟩
      · obtain rfl : g = f := by simpa using hgnew
        obtain ⟨nul, hqnul, hnulle, hnul⟩ := h.stopped q hold
        have hne : nul ≠ g := fun heq => hfirst (heq ▸ hnul)
        exact ⟨nul, hqnul, by omega, hkeep nul hnul⟩
    · -- nothing begins behind the new field
      obtain rfl : q = f := by simpa using hnew
      rcases List.mem_append.mp hg with hgold | hgnew
      · obtain ⟨nul, hgnul, hnulle, -⟩ := h.stopped g (h.known hgold)
        omega
      · have hsame : g = q := by simpa using hgnew
        omega

end

/-- `rest` is still to be read. -/
structure TokenizerState.Reading (s : TokenizerState) (front rest tail : Bytes) : Prop where
  mem : s.mem = front ++ (rest ++ 0 :: tail)
  args : s.args = some front.length
  nulFree : (0 : UInt8) ∉ rest
  pointers : Pointers s.mem front.length s.starts s.given

section
variable {s : TokenizerState} {front rest tail : Bytes} (h : s.Reading front rest tail)
include h

theorem TokenizerState.Reading.nextToken_keeps {p f : Nat} (hp : p ∈ s.given) (hf : f ∈ s.starts)
    (hlt : p < f) (delim : UInt8) :
    ∃ token mem' c, n2aNextToken s.mem (some p) delim = .ok (token, mem', c) ∧
      textAt mem' f = textAt s.mem f := by
  obtain ⟨stop, hle, hstop, hnul⟩ := h.pointers.apart p hp f hf hlt
  obtain ⟨token, mem', c, hnext, -, -, hbehind⟩ := n2aNextToken_between hle hnul delim
  refine ⟨token, mem', some c, hnext, ?_⟩
  have hdrop := congrArg (List.drop (f - stop)) (hbehind stop hle hnul).2
  rw [List.drop_drop, List.drop_drop, Nat.add_sub_cancel' (Nat.le_of_lt hstop)] at hdrop
  rw [textAt, textAt, hdrop]

theorem tokenizerStep_nextToken (k : Nat) (delim : UInt8) :
    ∃ s' front', tokenizerStep s (.nextToken k delim) = .ok ([], s') ∧
      front'.length = front.length ∧ s'.Reading front' rest tail := by
  cases hk : s.given[k]? with
  | none => exact ⟨s, front, by simp only [tokenizerStep, hk], rfl, h⟩
  | some p =>
      have hp := List.mem_of_getElem? hk
      obtain ⟨stop, hle, hstop, hnul⟩ := h.pointers.stopped p hp
      obtain ⟨token, mem', c, hnext, hkeep, hfrom, hbehind⟩ := n2aNextToken_between hle hnul delim
      simp only [tokenizerStep, hk, hnext, bind, Except.bind]
      have hsuffix : mem'.drop front.length = rest ++ 0 :: tail := by
        have hmore := congrArg (List.drop (front.length - stop)) (hbehind stop hle hnul).2
        rw [List.drop_drop, List.drop_drop, Nat.add_sub_cancel' hstop] at hmore
        rw [hmore, h.mem, List.drop_left]
      have hlength : (mem'.take front.length).length = front.length := by
        have hsize := congrArg List.length hsuffix
        simp only [List.length_drop, List.length_append, List.length_cons] at hsize
        rw [List.length_take]
        omega
      refine ⟨_, mem'.take front.length, rfl, hlength, ?_, ?_, h.nulFree, ?_⟩
      · rw [← hsuffix, List.take_append_drop]
      · rw [hlength]
        exact h.args
      · rw [hlength]
        exact h.pointers.token hp hkeep hfrom fun nul hnul hthere => (hbehind nul hnul hthere).1

/-- The cursor of a call of `n2a_next_field` stays in a text of `size` bytes, its NUL
included, and moves on if a field is returned. -/
def FieldCall.Advances (size : Nat) (r : FieldCall) : Prop :=
  ∃ a b, r.before = some a ∧ r.args = some b ∧ b ≤ size ∧ (r.field.isSome → a < b)

theorem tokenizerStep_end (hall : ∀ c ∈ rest, isspace c = true) :
    ∃ r s', tokenizerStep s .nextField = .ok ([r], s') ∧ r.field = none ∧
      r.Advances (front.length + rest.length) ∧ s'.Reading (front ++ rest) [] tail := by
  have hnext := n2aNextField_end front tail hall
  rw [← h.mem, ← h.args, ← List.length_append] at hnext
  refine ⟨_, _, by simp only [tokenizerStep, hnext, bind, Except.bind]; rfl, rfl, ?_, ?_, rfl,
    List.not_mem_nil, ?_⟩
  · exact ⟨_, _, h.args, rfl, by simp, by simp⟩
  · rw [h.mem]
    simp
  · rw [List.length_append]
    simpa using h.pointers.mono (Nat.le_add_right _ _)

theorem tokenizerStep_cut {gap field T : Bytes} {c : UInt8}
    (hmem : rest ++ 0 :: tail = gap ++ (field ++ c :: T)) (hgap : ∀ c ∈ gap, isspace c = true)
    (hne : field ≠ []) (hfield : ∀ c ∈ field, isspace c = false) (hnul : (0 : UInt8) ∉ field)
    (hc : c = 0 ∨ isspace c = true) :
    ∃ s', tokenizerStep s .nextField = .ok ([⟨some (.ofBytes field), s.args, s'.args⟩], s') ∧
      s'.mem = (front ++ gap) ++ (field ++ 0 :: T) ∧
      s'.args = some ((front ++ gap).length + field.length + if c = 0 then 0 else 1) ∧
      Pointers s'.mem ((front ++ gap).length + field.length) s'.starts s'.given := by
  have hnext := n2aNextField_field front T hgap hne hfield hnul hc
  rw [← hmem, ← h.mem, ← h.args] at hnext
  have hcut : (front ++ gap) ++ (field ++ 0 :: T) =
      s.mem.set ((front ++ gap).length + field.length) 0 := by
    rw [h.mem, hmem, ← List.append_assoc front gap, set_middle]
  have htext : textAt ((front ++ gap) ++ (field ++ 0 :: T)) (front ++ gap).length =
      .ofBytes field := textAt_middle hnul
  have hfirst : s.mem[(front ++ gap).length]? ≠ some 0 := by
    obtain ⟨b, word, rfl⟩ := List.exists_cons_of_ne_nil hne
    have hb : b ≠ 0 := fun hzero => hnul (hzero ▸ List.mem_cons_self)
    rw [h.mem, hmem, ← List.append_assoc front gap, List.cons_append,
      List.getElem?_append_right (Nat.le_refl _)]
    simpa using hb
  refine ⟨⟨_, _, s.starts ++ [(front ++ gap).length], s.given ++ [(front ++ gap).length]⟩, ?_, rfl,
    rfl, ?_⟩
  · simp only [tokenizerStep, hnext, bind, Except.bind, Option.map_some, htext, Option.toList_some]
  · apply h.pointers.field _ hfirst (Nat.le_add_right _ _)
    · intro q hq
      rw [hcut]
      exact nul_set hq _
    · exact getElem?_middle
    · rw [List.length_append]
      exact Nat.le_add_right _ _

theorem tokenizerStep_field {gap field after : Bytes} (hrest : rest = gap ++ (field ++ after))
    (hgap : ∀ c ∈ gap, isspace c = true) (hne : field ≠ [])
    (hfield : ∀ c ∈ field, isspace c = false) (hafter : ∀ c ∈ after.head?, isspace c = true) :
    ∃ r s' front', tokenizerStep s .nextField = .ok ([r], s') ∧ r.field = some (.ofBytes field) ∧
      r.Advances (front.length + rest.length) ∧ s'.Reading front' after.tail tail ∧
      front'.length + after.tail.length = front.length + rest.length := by
  have hnul := h.nulFree
  rw [hrest, List.mem_append, List.mem_append, not_or, not_or] at hnul
  have hpos := List.length_pos_of_ne_nil hne
  have hsize : rest.length = gap.length + (field.length + after.length) := by
    rw [hrest, List.length_append, List.length_append]
  cases after with
  | nil =>
      have hmem : rest ++ 0 :: tail = gap ++ (field ++ 0 :: tail) := by
        rw [hrest]
        simp
      obtain ⟨s', hstep, hmem', hargs', hpointers⟩ :=
        tokenizerStep_cut h hmem hgap hne hfield hnul.2.1 (.inl rfl)
      rw [if_pos rfl, Nat.add_zero, ← List.length_append] at hargs'
      rw [← List.length_append] at hpointers
      have hend : (front ++ gap ++ field).length = front.length + rest.length := by
        simp only [hsize, List.length_append, List.length_nil]
        omega
      refine ⟨_, s', front ++ gap ++ field, hstep, rfl, ⟨_, _, h.args, hargs', ?_, fun _ => ?_⟩,
        ⟨?_, hargs', List.not_mem_nil, hpointers⟩, hend⟩
      · exact Nat.le_of_eq hend
      · omega
      · rw [hmem', List.append_assoc _ field]
        rfl
  | cons c after =>
      have hcne : c ≠ 0 := fun hzero => hnul.2.2 (hzero ▸ List.mem_cons_self)
      have hmem : rest ++ 0 :: tail = gap ++ (field ++ c :: (after ++ 0 :: tail)) := by
        rw [hrest]
        simp
      obtain ⟨s', hstep, hmem', hargs', hpointers⟩ :=
        tokenizerStep_cut h hmem hgap hne hfield hnul.2.1 (.inr (hafter c rfl))
      have hfront : (front ++ gap ++ (field ++ [0])).length =
          (front ++ gap).length + field.length + 1 := by
        simp only [List.length_append, List.length_cons, List.length_nil]
        omega
      have hend : (front ++ gap ++ (field ++ [0])).length + after.length =
          front.length + rest.length := by
        rw [hfront, hsize, List.length_append, List.length_cons]
        omega
      rw [if_neg hcne, ← hfront] at hargs'
      refine ⟨_, s', front ++ gap ++ (field ++ [0]), hstep, rfl,
        ⟨_, _, h.args, hargs', ?_, fun _ => ?_⟩,
        ⟨?_, hargs', fun hmem => hnul.2.2 (List.mem_cons_of_mem c hmem), hpointers.mono ?_⟩, hend⟩
      · omega
      · rw [hfront, List.length_append]
        omega
      · rw [hmem']
        simp
      · omega

theorem tokenizerStep_nextField :
    ∃ r s' front' rest', tokenizerStep s .nextField = .ok ([r], s') ∧
      r.field = (words isspace rest)[0]?.map .ofBytes ∧
      r.Advances (front.length + rest.length) ∧ s'.Reading front' rest' tail ∧
      front'.length + rest'.length = front.length + rest.length ∧
      words isspace rest' = (words isspace rest).tail := by
  rcases words_cases isspace rest with
    hall | ⟨gap, field, after, hrest, hgap, hne, hfield, hafter⟩
  · obtain ⟨r, s', hstep, hnone, hadvances, hreading⟩ := tokenizerStep_end h hall
    refine ⟨r, s', _, _, hstep, ?_, hadvances, hreading, ?_, ?_⟩
    · rw [hnone, words_eq_nil hall]
      rfl
    · rw [List.length_append, List.length_nil, Nat.add_zero]
    · rw [words_eq_nil hall, words_nil, List.tail_nil]
  · obtain ⟨r, s', front', hstep, hsome, hadvances, hreading, hsize⟩ :=
      tokenizerStep_field h hrest hgap hne hfield hafter
    have hwords := words_gap_word hgap hne hfield hafter
    rw [← hrest] at hwords
    refine ⟨r, s', front', _, hstep, ?_, hadvances, hreading, hsize, ?_⟩
    · rw [hsome, hwords]
      rfl
    · rw [hwords, List.tail_cons]

end

/-! ## Whole runs -/

/-- Induction on the calls: those of `n2a_next_field` return the words that are left, one
after the other, whatever is done to the fields in between. -/
theorem tokenizerRun_reading (calls : List TokenizerCall) {s : TokenizerState}
    {front rest tail : Bytes} (h : s.Reading front rest tail) :
    ∃ found s' front' rest', tokenizerRun calls s = .ok (found, s') ∧
      found.length = calls.count .nextField ∧ s'.Reading front' rest' tail ∧
      ∀ (i : Nat) (r : FieldCall), found[i]? = some r →
        r.field = (words isspace rest)[i]?.map .ofBytes ∧
        r.Advances (front.length + rest.length) := by
  induction calls generalizing s front rest with
  | nil => exact ⟨[], s, front, rest, rfl, rfl, h, by simp⟩
  | cons call calls ih =>
      cases call with
      | nextToken k delim =>
          obtain ⟨s₁, front₁, hstep, hlength, hreading⟩ := tokenizerStep_nextToken h k delim
          obtain ⟨found, s', front', rest', hrun, hcount, hlast, hfound⟩ := ih hreading
          refine ⟨found, s', front', rest', ?_, ?_, hlast, ?_⟩
          · simp only [tokenizerRun, hstep, bind, Except.bind, hrun, List.nil_append]
          · rw [hcount, List.count_cons_of_ne (by simp)]
          · rw [← hlength]
            exact hfound
      | nextField =>
          obtain ⟨r, s₁, front₁, rest₁, hstep, hfield, hadvances, hreading, hsize, hwords⟩ :=
            tokenizerStep_nextField h
          obtain ⟨found, s', front', rest', hrun, hcount, hlast, hfound⟩ := ih hreading
          refine ⟨r :: found, s', front', rest', ?_, ?_, hlast, ?_⟩
          · simp only [tokenizerRun, hstep, bind, Except.bind, hrun, List.singleton_append]
          · rw [List.length_cons, hcount, List.count_cons_self]
          · intro i r' hr
            cases i with
            | zero =>
                cases hr
                exact ⟨hfield, hadvances⟩
            | succ i =>
                rw [List.getElem?_cons_succ] at hr
                obtain ⟨hlater, hadvances'⟩ := hfound i r' hr
                rw [hwords, List.getElem?_tail] at hlater
                rw [hsize] at hadvances'
                exact ⟨hlater, hadvances'⟩

/-- However the fields found so far are cut up in between, the calls of `n2a_next_field` on
a text return its words in order and NULL behind the last, and the cursor moves on with
every field and never behind the NUL of the text. A token cut off an earlier field leaves
the text of a later one. -/
theorem tokenizerRun_fields (text : CString) (tail : Bytes) (calls : List TokenizerCall) :
    ∃ found s', tokenizerRun calls ⟨text.bytes ++ 0 :: tail, some 0, [], []⟩ = .ok (found, s') ∧
      found.length = calls.count .nextField ∧
      (∀ (i : Nat) (r : FieldCall), found[i]? = some r →
        r.field = (fields text)[i]?.map .ofBytes ∧ r.Advances text.strlen) ∧
      ∀ p ∈ s'.given, ∀ f ∈ s'.starts, p < f → ∀ delim, ∃ token mem c,
        n2aNextToken s'.mem (some p) delim = .ok (token, mem, c) ∧ textAt mem f = textAt s'.mem f := by
  have hpointers : Pointers (text.bytes ++ 0 :: tail) 0 [] [] :=
    ⟨List.Subset.refl _, fun _ hp => absurd hp List.not_mem_nil,
      fun _ hp => absurd hp List.not_mem_nil⟩
  have hstart : TokenizerState.Reading ⟨text.bytes ++ 0 :: tail, some 0, [], []⟩ [] text.bytes tail :=
    ⟨rfl, rfl, text.nulFree, hpointers⟩
  obtain ⟨found, s', front, rest, hrun, hcount, hreading, hfound⟩ := tokenizerRun_reading calls hstart
  refine ⟨found, s', hrun, hcount, fun i r hr => ?_,
    fun p hp f hf hlt => hreading.nextToken_keeps hp hf hlt⟩
  obtain ⟨hfield, hadvances⟩ := hfound i r hr
  rw [List.length_nil, Nat.zero_add] at hadvances
  exact ⟨hfield, hadvances⟩

end Neb2Amqp
