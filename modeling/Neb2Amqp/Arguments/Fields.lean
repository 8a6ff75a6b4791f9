import Neb2Amqp.Arguments.Parse

/-!
# What the fields of the arguments do

Each field makes settings of its own text alone, and the loop of `n2a_parse_arguments`
makes those of the fields in order: cutting up a later field changes no string that an
earlier one has set.
-/

namespace Neb2Amqp

open CLib

/-- The options as the strings they point to. -/
abbrev Values := Settings (Option CString)

inductive Setting
  | int (x : IntOption) (v : Int32)
  | str (x : StrOption) (s : Option CString)
  deriving DecidableEq

def Setting.apply (g : Values) : Setting → Values
  | .int x v => g.setInt x v
  | .str x s => g.setStr x s

/-- The settings of a text for `host` or `port:host`. -/
def hostSettings (w : Bytes) : List Setting :=
  if w = [] then [.str .hostname none]
  else if after 58 w = [] then [.str .hostname (some (.ofBytes (before 58 w)))]
  else
    [.str .hostname (some (.ofBytes (after 58 w))),
      .int .port (strtolInt 10 (.ofBytes (before 58 w)))]

/-- The settings of a value, by what its key asks for. -/
def Handling.settings (value : Bytes) : Handling → List Setting
  | .number x base => [.int x (strtolInt base (.ofBytes value))]
  | .text x => [.str x (some (.ofBytes value))]
  | .purge => [.int .purge (purgeValue (.ofBytes value))]
  | .rate =>
      let r := strtolInt 10 (.ofBytes value)
      if 0 < r then [.int .rate (r * 1000)] else []
  | .flush =>
      let r := strtolInt 10 (.ofBytes value)
      if 0 < r ∨ r = -1 then [.int .flush r] else []
  | .host => hostSettings value

def fieldKey (f : Bytes) : Bytes := before 61 f

def fieldValue (f : Bytes) : Bytes := after 61 f

def fieldHandling (f : Bytes) : Option Handling := handlings.lookup (.ofBytes (fieldKey f))

/-- Without a value, the part before the `=` is taken for a host. -/
def fieldSettings (f : Bytes) : List Setting :=
  if fieldValue f = [] then hostSettings (fieldKey f)
  else (fieldHandling f).elim [] (Handling.settings (fieldValue f))

def applyField (g : Values) (f : Bytes) : Values := (fieldSettings f).foldl Setting.apply g

/-- The fields of the arguments. -/
def fields (text : CString) : List Bytes := words isspace text.bytes

/-! ## Pointers into what has been read -/

/-- The string members end within `front` and read as `v` there. -/
structure Settings.Within (g : Settings CharPtr) (front : Bytes) (v : Values) : Prop where
  settled : ∀ x p, g.str x = .inArgs p → Settled front p
  values : g.map (CharPtr.read front) = v

namespace Settings.Within

variable {g : Settings CharPtr} {front : Bytes} {v : Values}

theorem append (h : g.Within front v) (tail : Bytes) : g.Within (front ++ tail) v := by
  constructor
  · exact fun x p hp => (h.settled x p hp).append tail
  · rw [← h.values]
    have hread : (fun x => CharPtr.read (front ++ tail) (g.str x)) =
        fun x => CharPtr.read front (g.str x) := by
      funext x
      cases hx : g.str x with
      | given s => rfl
      | inArgs p => exact congrArg some ((h.settled x p hx).textAt_append tail)
    rw [map, map, hread]

theorem given (v : Values) (front : Bytes) : (v.map CharPtr.given).Within front v :=
  ⟨fun _ _ hp => (nomatch hp), rfl⟩

theorem setInt (h : g.Within front v) (x : IntOption) (n : Int32) :
    (g.setInt x n).Within front (v.setInt x n) :=
  ⟨h.settled, by rw [map_setInt, h.values]⟩

theorem setStr (h : g.Within front v) (x : StrOption) (p : CharPtr)
    (hp : ∀ i, p = .inArgs i → Settled front i) :
    (g.setStr x p).Within front (v.setStr x (p.read front)) := by
  constructor
  · intro y i hi
    by_cases hy : y = x
    · subst hy
      exact hp i (by simpa [Settings.setStr] using hi)
    · exact h.settled y i (by simpa [Settings.setStr, hy] using hi)
  · rw [map_setStr, h.values]

theorem setText (h : g.Within front v) (x : StrOption) {i : Nat} (hi : Settled front i)
    {s : CString} (hs : textAt front i = s) :
    (g.setStr x (.inArgs i)).Within front (v.setStr x (some s)) := by
  have hset := h.setStr x (.inArgs i) fun j hj => CharPtr.inArgs.inj hj ▸ hi
  rw [CharPtr.read, hs] at hset
  exact hset

end Settings.Within

/-! ## One field -/

/-- What a step that cuts up the text `w` behind `front` makes of array and options. -/
def Cuts (result : Except Stuck (Bytes × Settings CharPtr)) (front w tail : Bytes)
    (v : Values) : Prop :=
  ∃ w' g, w'.length = w.length ∧ result = .ok (front ++ (w' ++ 0 :: tail), g) ∧
    g.Within (front ++ (w' ++ [0])) v

section
variable {front w tail : Bytes} {g : Settings CharPtr} {v : Values} (hw : (0 : UInt8) ∉ w)
  (hg : g.Within front v)
include hw hg

theorem parseHost_cuts : Cuts (parseHost (front ++ (w ++ 0 :: tail)) (some front.length) g)
    front w tail ((hostSettings w).foldl Setting.apply v) := by
  obtain ⟨c, hleft, c', hright⟩ := n2aNextToken_twice front tail (show (58 : UInt8) ≠ 0 by decide) hw
  have hfront := hg.append (cut 58 w ++ [0])
  have hsettled : Settled (front ++ (cut 58 w ++ [0])) front.length :=
    settled_middle (Nat.le_add_right _ _)
  have htext : textAt (front ++ (cut 58 w ++ [0])) front.length = .ofBytes (before 58 w) :=
    textAt_before hw
  unfold hostSettings
  by_cases hafter : after 58 w = []
  · rw [if_pos hafter] at hright
    by_cases hnil : w = []
    · rw [if_pos hnil] at hleft ⊢
      refine ⟨cut 58 w, _, cut_length 58 w, ?_,
        hfront.setStr .hostname (.given none) fun _ hp => (nomatch hp)⟩
      simp only [parseHost, hleft, hright, bind, Except.bind]
      rfl
    · rw [if_neg hnil] at hleft
      rw [if_neg hnil, if_pos hafter]
      refine ⟨cut 58 w, _, cut_length 58 w, ?_, hfront.setText .hostname hsettled htext⟩
      simp only [parseHost, hleft, hright, bind, Except.bind]
      rfl
  · have hnil : w ≠ [] := by
      rintro rfl
      exact hafter rfl
    have hmem : 58 ∈ w := by
      by_contra hmem
      exact hafter (after_of_not_mem hmem)
    have hlength := congrArg List.length (before_append_after hmem)
    rw [List.length_append, List.length_cons] at hlength
    have hsettled' : Settled (front ++ (cut 58 w ++ [0])) (front.length + (before 58 w).length + 1) := by
      apply settled_middle
      rw [cut_length]
      omega
    rw [if_neg hnil] at hleft
    rw [if_neg hafter] at hright
    rw [if_neg hnil, if_neg hafter]
    refine ⟨cut 58 w, _, cut_length 58 w, ?_,
      (hfront.setText .hostname hsettled' (textAt_after hw hafter)).setInt .port _⟩
    simp only [parseHost, hleft, hright, bind, Except.bind, deref, textAt_before hw]

/-- Without a value, the `=` at the end is cut off and the rest is a host. -/
theorem parseHost_cuts_key (hvalue : after 61 w = []) :
    Cuts (parseHost (front ++ (cut 61 w ++ 0 :: tail)) (some front.length) g) front w tail
      ((hostSettings (before 61 w)).foldl Setting.apply v) := by
  by_cases hmem : 61 ∈ w
  · have hsplit : front ++ (cut 61 w ++ 0 :: tail) =
        front ++ (before 61 w ++ 0 :: (0 :: tail)) := by
      simp [cut, hmem, hvalue]
    have hlength := congrArg List.length (before_append_after hmem)
    rw [hvalue, List.length_append, List.length_singleton] at hlength
    have hkeyNul : (0 : UInt8) ∉ before 61 w := not_mem_before_of hw
    obtain ⟨w', g', hw', hresult, hwithin⟩ := parseHost_cuts hkeyNul hg
    refine ⟨w' ++ [0], g', ?_, ?_, ?_⟩
    · rw [List.length_append, hw', List.length_singleton, hlength]
    · rw [hsplit, hresult]
      simp
    · rw [← List.append_assoc]
      exact hwithin.append [0]
  · have hcut : cut 61 w = w := if_neg hmem
    rw [hcut, before_of_not_mem hmem]
    exact parseHost_cuts hw hg

theorem parseValue_cuts (hvalue : after 61 w ≠ []) :
    Cuts (parseValue (front ++ (cut 61 w ++ 0 :: tail)) front.length
        (front.length + (before 61 w).length + 1) g) front w tail
      (((fieldHandling w).elim [] (Handling.settings (after 61 w))).foldl Setting.apply v) := by
  have hmem : 61 ∈ w := by
    by_contra hmem
    exact hvalue (after_of_not_mem hmem)
  have hlength := congrArg List.length (before_append_after hmem)
  rw [List.length_append, List.length_cons] at hlength
  have hfront := hg.append (cut 61 w ++ [0])
  -- all branches but that of `host` leave the array as it is
  have hkept : ∀ {g' v'}, g'.Within (front ++ (cut 61 w ++ [0])) v' →
      Cuts (.ok (front ++ (cut 61 w ++ 0 :: tail), g')) front w tail v' :=
    fun hg' => ⟨_, _, cut_length 61 w, rfl, hg'⟩
  have hkey : textAt (front ++ (cut 61 w ++ 0 :: tail)) front.length = .ofBytes (fieldKey w) :=
    textAt_before hw
  have htext : textAt (front ++ (cut 61 w ++ 0 :: tail))
      (front.length + (before 61 w).length + 1) = .ofBytes (after 61 w) :=
    textAt_after hw hvalue
  have hlookup : handlings.lookup (.ofBytes (fieldKey w)) = fieldHandling w := rfl
  unfold parseValue
  rw [hkey, hlookup]
  cases hhandling : fieldHandling w with
  | none => exact hkept hfront
  | some handling =>
      cases handling with
      | number x base =>
          simp only [htext]
          exact hkept (hfront.setInt x _)
      | text x =>
          refine hkept (hfront.setText x ?_ (textAt_after hw hvalue))
          apply settled_middle
          rw [cut_length]
          omega
      | purge =>
          simp only [htext]
          exact hkept (hfront.setInt .purge _)
      | rate =>
          simp only [htext, Option.elim_some, Handling.settings]
          by_cases hr : 0 < strtolInt 10 (.ofBytes (after 61 w))
          · rw [if_pos hr, if_pos hr]
            exact hkept (hfront.setInt .rate _)
          · rw [if_neg hr, if_neg hr]
            exact hkept hfront
      | flush =>
          simp only [htext, Option.elim_some, Handling.settings]
          by_cases hr : 0 < strtolInt 10 (.ofBytes (after 61 w)) ∨
              strtolInt 10 (.ofBytes (after 61 w)) = -1
          · rw [if_pos hr, if_pos hr]
            exact hkept (hfront.setInt .flush _)
          · rw [if_neg hr, if_neg hr]
            exact hkept hfront
      | host =>
          have hsplit : front ++ (cut 61 w ++ 0 :: tail) =
              (front ++ (before 61 w ++ [0])) ++ (after 61 w ++ 0 :: tail) := by
            simp [cut, hmem]
          have hpos : front.length + (before 61 w).length + 1 =
              (front ++ (before 61 w ++ [0])).length := by
            simp [Nat.add_assoc]
          have hvalueNul : (0 : UInt8) ∉ after 61 w := not_mem_after hw
          obtain ⟨w', g', hw', hresult, hwithin⟩ :=
            parseHost_cuts hvalueNul (hg.append (before 61 w ++ [0]))
          refine ⟨before 61 w ++ 0 :: w', g', ?_, ?_, ?_⟩
          · simp only [List.length_append, List.length_cons]
            omega
          · simp only [hpos, hsplit]
            rw [hresult]
            simp
          · simpa [Handling.settings] using hwithin

variable (tail) in
theorem parseField_cuts (hne : w ≠ []) :
    Cuts (parseField (front ++ (w ++ 0 :: tail)) front.length g) front w tail
      (applyField v w) := by
  obtain ⟨c, hleft, c', hright⟩ := n2aNextToken_twice front tail (show (61 : UInt8) ≠ 0 by decide) hw
  rw [if_neg hne] at hleft
  unfold applyField fieldSettings
  by_cases hvalue : fieldValue w = []
  · rw [if_pos (show after 61 w = [] from hvalue)] at hright
    rw [if_pos hvalue]
    simp only [parseField, hleft, hright, bind, Except.bind]
    exact parseHost_cuts_key hw hg hvalue
  · rw [if_neg (show after 61 w ≠ [] from hvalue)] at hright
    rw [if_neg hvalue]
    simp only [parseField, hleft, hright, bind, Except.bind, deref]
    exact parseValue_cuts hw hg hvalue

end

/-! ## The loop -/

/-- The loop stands behind `front`, with `rest` to be read; what the options read as is
settled before that, unless nothing is left. -/
structure ParseState.Reading (s : ParseState) (front rest : Bytes) (v : Values) : Prop where
  mem : s.mem = front ++ (rest ++ [0])
  args : s.args = some front.length
  nulFree : (0 : UInt8) ∉ rest
  within : s.options.Within (if rest = [] then s.mem else front) v

/-- The options as they read now. -/
def ParseState.values (s : ParseState) : Values := s.options.map (CharPtr.read s.mem)

section
variable {s : ParseState} {front rest : Bytes} {v : Values} (h : s.Reading front rest v)
include h

theorem ParseState.Reading.within_mem : s.options.Within s.mem v := by
  have hwithin := h.within
  by_cases hrest : rest = []
  · rw [if_pos hrest] at hwithin
    exact hwithin
  · rw [if_neg hrest] at hwithin
    rw [h.mem]
    exact hwithin.append _

theorem parseRound_end (hall : ∀ c ∈ rest, isspace c = true) :
    ∃ s', parseRound s = .ok (false, s') ∧ s'.values = v := by
  have hnext := n2aNextField_end front [] hall
  rw [← h.mem, ← h.args] at hnext
  have hround : parseRound s =
      .ok (false, ⟨s.mem, some (front.length + rest.length), s.options⟩) := by
    simp only [parseRound, hnext, bind, Except.bind]
  exact ⟨_, hround, h.within_mem.values⟩

theorem parseRound_field {gap field tail : Bytes} (hrest : rest = gap ++ (field ++ tail))
    (hgap : ∀ c ∈ gap, isspace c = true) (hne : field ≠ [])
    (hfield : ∀ c ∈ field, isspace c = false) (htail : ∀ c ∈ tail.head?, isspace c = true) :
    ∃ s' front', parseRound s = .ok (true, s') ∧
      s'.Reading front' tail.tail (applyField v field) := by
  have hnul := h.nulFree
  rw [hrest, List.mem_append, List.mem_append, not_or, not_or] at hnul
  have hrestNe : rest ≠ [] := by
    rw [hrest]
    simp [hne]
  have hwithin := h.within
  rw [if_neg hrestNe] at hwithin
  have hgapped := hwithin.append gap
  cases tail with
  | nil =>
      have hmem : s.mem = front ++ (gap ++ (field ++ 0 :: [])) := by
        rw [h.mem, hrest]
        simp
      have hnext := n2aNextField_field front [] hgap hne hfield hnul.2.1 (.inl rfl)
      rw [← hmem, ← h.args] at hnext
      obtain ⟨field', g, hlength, hparse, hg⟩ :=
        parseField_cuts [] hnul.2.1 hgapped hne
      have hround : parseRound s = .ok (true, ⟨front ++ gap ++ (field' ++ [0]),
          some ((front ++ gap).length + field.length), g⟩) := by
        simp only [parseRound, hnext, bind, Except.bind, hparse, if_true, Nat.add_zero]
      refine ⟨_, front ++ gap ++ field', hround, by simp, by simp [hlength, Nat.add_assoc],
        List.not_mem_nil, ?_⟩
      simpa using hg
  | cons c tail =>
      have hspace : isspace c = true := htail c rfl
      have hc : c ≠ 0 := by
        rintro rfl
        cases hspace
      have hmem : s.mem = front ++ (gap ++ (field ++ c :: (tail ++ [0]))) := by
        rw [h.mem, hrest]
        simp
      have hnext := n2aNextField_field front (tail ++ [0]) hgap hne hfield hnul.2.1 (.inr hspace)
      rw [← hmem, ← h.args, if_neg hc] at hnext
      obtain ⟨field', g, hlength, hparse, hg⟩ :=
        parseField_cuts (tail ++ [0]) hnul.2.1 hgapped hne
      have hround : parseRound s = .ok (true, ⟨front ++ gap ++ (field' ++ 0 :: (tail ++ [0])),
          some ((front ++ gap).length + field.length + 1), g⟩) := by
        simp only [parseRound, hnext, bind, Except.bind, hparse]
      refine ⟨_, front ++ gap ++ (field' ++ [0]), hround, by simp, by simp [hlength, Nat.add_assoc],
        fun hmem => hnul.2.2 (List.mem_cons_of_mem c hmem), ?_⟩
      dsimp only
      split
      · have hlonger := hg.append (tail ++ [0])
        simpa using hlonger
      · exact hg

end

/-- Induction on the rounds: the first `n` fields, as long as there are so many. -/
theorem parseRounds_reading (n : Nat) {s : ParseState} {front rest : Bytes} {v : Values}
    (h : s.Reading front rest v) :
    ∃ s', parseRounds n s = .ok (decide (n ≤ (words isspace rest).length), s') ∧
      s'.values = ((words isspace rest).take n).foldl applyField v := by
  induction n generalizing s front rest v with
  | zero => exact ⟨s, by simp [parseRounds], h.within_mem.values⟩
  | succ n ih =>
      rcases words_cases isspace rest with hall | ⟨gap, field, tail, hrest, hgap, hne, hfield, htail⟩
      · have hnone : words isspace rest = [] := words_eq_nil hall
        obtain ⟨s', hround, hvalues⟩ := parseRound_end h hall
        refine ⟨s', ?_, ?_⟩
        · simp [parseRounds, hround, bind, Except.bind, hnone]
        · rw [hvalues, hnone]
          rfl
      · have hwords : words isspace rest = field :: words isspace tail.tail := by
          rw [hrest]
          exact words_gap_word hgap hne hfield htail
        obtain ⟨s₁, front', hround, hreading⟩ :=
          parseRound_field h hrest hgap hne hfield htail
        obtain ⟨s', hrounds, hvalues⟩ := ih hreading
        refine ⟨s', ?_, ?_⟩
        · simp only [parseRounds, hround, bind, Except.bind, if_true, hrounds, hwords,
            List.length_cons, Nat.add_le_add_iff_right]
        · rw [hvalues, hwords]
          rfl

/-! ## n2a_parse_arguments -/

/-- The options after these fields. -/
def optionsAfter (o : Options) (fs : List Bytes) : Options :=
  (fs.foldl applyField o.settings).options

section
variable {text : CString} (o : Options)

theorem xstrdup_of_le (hne : text.bytes ≠ []) (hle : text.strlen ≤ uintMax) :
    xstrdup (some text) = some (text.bytes ++ [0]) := by
  have hlen : xstrlen (some text) = text.bytes.length := Nat.min_eq_left hle
  have hpos := List.length_pos_of_ne_nil hne
  rw [xstrdup, hlen, if_neg (by omega), Option.getD_some, List.take_of_length_le (by simp)]

/-- The fields make their settings one after the other, and the parser returns once it
has found that no field is left. -/
theorem n2aParseArguments_eq (n : Nat) (hne : text.bytes ≠ []) (hle : text.strlen ≤ uintMax) :
    n2aParseArguments n (some text) o =
      .ok (decide ((fields text).length < n), optionsAfter o ((fields text).take n)) := by
  have hstart : ParseState.Reading ⟨text.bytes ++ [0], some 0, o.settings.map .given⟩ [] text.bytes
      o.settings :=
    ⟨rfl, rfl, text.nulFree, Settings.Within.given _ _⟩
  obtain ⟨s, hrounds, hvalues⟩ := parseRounds_reading n hstart
  have hreturned : (!decide (n ≤ (fields text).length)) = decide ((fields text).length < n) := by
    by_cases hn : n ≤ (fields text).length
    · simp [hn]
    · simp [hn, Nat.lt_of_not_le hn]
  change s.values = ((fields text).take n).foldl applyField o.settings at hvalues
  rw [n2aParseArguments]
  simp only [xstrdup_of_le hne hle, Option.getD_some, Option.map_some, bind, Except.bind, hrounds]
  rw [optionsAfter, ← hvalues, ← hreturned]
  rfl

/-- No copy is made of the empty text, and NULL is searched for its first field. -/
theorem n2aParseArguments_empty (n : Nat) (hempty : text.bytes = []) :
    n2aParseArguments (n + 1) (some text) o = .error .null := by
  have hcopy : xstrdup (some text) = none := by
    have hlen : xstrlen (some text) = 0 := by
      rw [xstrlen_some, CString.strlen, hempty]
      rfl
    rw [xstrdup, hlen]
    rfl
  rw [n2aParseArguments]
  simp only [hcopy]
  rfl

end

/-- A copy without a NUL: nothing stops the search for fields in it. -/
structure ParseState.Unterminated (s : ParseState) (front rest : Bytes) (v : Values) : Prop where
  mem : s.mem = front ++ rest
  args : s.args = some front.length
  nulFree : (0 : UInt8) ∉ rest
  within : s.options.Within front v

theorem parseRound_unterminated {s : ParseState} {front rest : Bytes} {v : Values}
    (h : s.Unterminated front rest v) : parseRound s = .error .outside ∨
      ∃ s' front' rest' v', parseRound s = .ok (true, s') ∧ s'.Unterminated front' rest' v' := by
  have hnul := h.nulFree
  rcases words_cases isspace rest with hall | ⟨gap, field, tail, hrest, hgap, hne, hfield, htail⟩
  · left
    have hseek : seek (front ++ rest) front.length (fun b => !isspace b) = .error .outside :=
      seek_outside fun b hb => by simp [hall b hb]
    simp only [parseRound, n2aNextField, n2aLstrip, h.mem, h.args, deref, bind, Except.bind, hseek]
  · rw [hrest, List.mem_append, List.mem_append, not_or, not_or] at hnul
    cases tail with
    | nil =>
        left
        obtain ⟨c, more, rfl⟩ := List.exists_cons_of_ne_nil hne
        have hmem : s.mem = (front ++ gap) ++ (c :: more) := by
          rw [h.mem, hrest]
          simp
        have hfirst : n2aLstrip s.mem s.args = .ok (front ++ gap).length := by
          rw [h.args, hmem, List.append_assoc, List.length_append]
          exact n2aLstrip_field front more hgap (hfield c List.mem_cons_self)
        have hc : c ≠ 0 := fun hc => hnul.2.1 (hc ▸ List.mem_cons_self)
        have hhead : s.mem[(front ++ gap).length]? = some c := by
          rw [hmem, List.getElem?_append_right (Nat.le_refl _), Nat.sub_self]
          rfl
        have hlast : seek s.mem (front ++ gap).length (fun b => b == 0 || isspace b) =
            .error .outside := by
          rw [hmem]
          apply seek_outside
          intro b hb
          have hbne : b ≠ 0 := fun hbz => hnul.2.1 (hbz ▸ hb)
          simp [hbne, hfield b hb]
        simp only [parseRound, n2aNextField, hfirst, bind, Except.bind, hhead, Option.some.injEq, hc,
          if_false, hlast]
    | cons c tail =>
        right
        have hspace : isspace c = true := htail c rfl
        have hc : c ≠ 0 := by
          rintro rfl
          cases hspace
        have hmem : s.mem = front ++ (gap ++ (field ++ c :: tail)) := by rw [h.mem, hrest]
        have hnext := n2aNextField_field front tail hgap hne hfield hnul.2.1 (.inr hspace)
        rw [← hmem, ← h.args, if_neg hc] at hnext
        obtain ⟨field', g, hlength, hparse, hg⟩ :=
          parseField_cuts tail hnul.2.1 (h.within.append gap) hne
        have hround : parseRound s = .ok (true, ⟨front ++ gap ++ (field' ++ 0 :: tail),
            some ((front ++ gap).length + field.length + 1), g⟩) := by
          simp only [parseRound, hnext, bind, Except.bind, hparse]
        exact ⟨_, front ++ gap ++ (field' ++ [0]), tail, _, hround, by simp,
          by simp [hlength, Nat.add_assoc],
          fun hmem => hnul.2.2 (List.mem_cons_of_mem c hmem), hg⟩

theorem parseRounds_unterminated (n : Nat) {s : ParseState} {front rest : Bytes} {v : Values}
    (h : s.Unterminated front rest v) (s' : ParseState) :
    parseRounds n s ≠ .ok (false, s') := by
  induction n generalizing s front rest v with
  | zero => exact fun hrun => nomatch hrun
  | succ n ih =>
      intro hrun
      rcases parseRound_unterminated h with hround | ⟨s₁, front', rest', v', hround, hnext⟩
      · simp only [parseRounds, hround, bind, Except.bind] at hrun
        cases hrun
      · simp only [parseRounds, hround, bind, Except.bind, if_true] at hrun
        exact ih hnext hrun

/-- Of a text longer than `UINT_MAX` the copy has no NUL, and the parser does not come back. -/
theorem n2aParseArguments_long (n : Nat) {text : CString} (hlong : uintMax < text.strlen)
    (o o' : Options) : n2aParseArguments n (some text) o ≠ .ok (true, o') := by
  have hlen : xstrlen (some text) = uintMax := Nat.min_eq_right (Nat.le_of_lt hlong)
  have hcopy : xstrdup (some text) = some (text.bytes.take (uintMax + 1)) := by
    rw [xstrdup, hlen, if_neg (by decide), Option.getD_some,
      List.take_append_of_le_length (show uintMax + 1 ≤ text.bytes.length from hlong)]
  have hstart : ParseState.Unterminated
      ⟨text.bytes.take (uintMax + 1), some 0, o.settings.map .given⟩ []
      (text.bytes.take (uintMax + 1)) o.settings :=
    ⟨rfl, rfl, fun h => text.nulFree (List.mem_of_mem_take h), Settings.Within.given _ _⟩
  intro hrun
  rw [n2aParseArguments] at hrun
  simp only [hcopy, Option.getD_some, Option.map_some, bind, Except.bind] at hrun
  cases hrounds : parseRounds n ⟨text.bytes.take (uintMax + 1), some 0, o.settings.map .given⟩ with
  | error stuck =>
      rw [hrounds] at hrun
      cases hrun
  | ok result =>
      obtain ⟨more, s⟩ := result
      rw [hrounds] at hrun
      simp only [Except.ok.injEq, Prod.mk.injEq, Bool.not_eq_true'] at hrun
      obtain ⟨rfl, -⟩ := hrun
      exact parseRounds_unterminated n hstart s hrounds

theorem n2aParseArguments_returned {n : Nat} {text : CString} {o o' : Options}
    (h : n2aParseArguments n (some text) o = .ok (true, o')) :
    text.bytes ≠ [] ∧ text.strlen ≤ uintMax ∧ o' = optionsAfter o (fields text) := by
  have hle : text.strlen ≤ uintMax := by
    by_contra hlong
    exact n2aParseArguments_long n (Nat.lt_of_not_le hlong) o o' h
  have hne : text.bytes ≠ [] := by
    intro hempty
    cases n with
    | zero => cases h
    | succ n =>
        rw [n2aParseArguments_empty o n hempty] at h
        cases h
  rw [n2aParseArguments_eq o n hne hle] at h
  simp only [Except.ok.injEq, Prod.mk.injEq, decide_eq_true_eq] at h
  rw [List.take_of_length_le (Nat.le_of_lt h.1)] at h
  exact ⟨hne, hle, h.2.symm⟩

/-- It does come back, after as many rounds as there are fields, and one. -/
theorem n2aParseArguments_returns (o : Options) {text : CString} (hne : text.bytes ≠ [])
    (hle : text.strlen ≤ uintMax) :
    n2aParseArguments ((fields text).length + 1) (some text) o =
      .ok (true, optionsAfter o (fields text)) := by
  rw [n2aParseArguments_eq o _ hne hle, List.take_of_length_le (Nat.le_succ _)]
  simp

end Neb2Amqp
