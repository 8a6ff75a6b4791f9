import Mathlib.Algebra.BigOperators.Group.List.Basic
import Neb2Amqp.Jansson.Object

/-!
# Writing JSON

`dump.c` and `jsonp_dtostr` as `json_dumps (json, 0)` uses them: no indentation, no
escaping beyond ASCII, pairs in the order of the table. `printf` stands for the
`%.17g` conversion of the C library.
-/

namespace Neb2Amqp

open CLib

/-! ## Strings -/

def hexDigit (n : Nat) : UInt8 := .ofNat (if n < 10 then 48 + n else 87 + n)

/-- What is written for a code point that may not stand for itself. -/
def escape (codepoint : Nat) : Option CString :=
  if codepoint = 92 then some (.ofBytes [92, 92])
  else if codepoint = 34 then some (.ofBytes [92, 34])
  else if codepoint = 8 then some (.ofBytes [92, 98])
  else if codepoint = 12 then some (.ofBytes [92, 102])
  else if codepoint = 10 then some (.ofBytes [92, 110])
  else if codepoint = 13 then some (.ofBytes [92, 114])
  else if codepoint = 9 then some (.ofBytes [92, 116])
  else if codepoint < 32 then
    some (.ofBytes [92, 117, 48, 48, hexDigit (codepoint / 16), hexDigit (codepoint % 16)])
  else none

/-- The loop of `dump_string` from `pos` on. -/
def dumpLoop : Nat → CString → Option CString
  | 0, _ => some (.ofBytes [])
  | fuel + 1, pos =>
      if pos.strlen = 0 then some (.ofBytes [])
      else
        match utf8Iterate pos.bytes with
        | none => none
        | some (codepoint, count) =>
            (dumpLoop fuel (pos.drop count)).map ((escape codepoint).getD (pos.take count) ++ ·)

def quote : CString := .ofBytes [34]

/-- Every round takes at least one byte. -/
def dumpString (str : CString) : Option CString :=
  (dumpLoop str.strlen str).map fun text => quote ++ text ++ quote

/-! ## Values and objects -/

/-- `JSON_INTEGER_FORMAT`. -/
def formatInteger (n : Int) : CString := .lit (toString n)

/-- `MAX_REAL_STR_LENGTH`. -/
def maxRealStrLength : Nat := 100

/-- A `.0` is added to what looks like an integer, and a positive sign and zeros
in front of an exponent are taken out. -/
def jsonpDtostr (printf : UInt64 → Option CString) (value : UInt64) : Option CString :=
  match printf value with
  | none => none
  | some buffer =>
      let integral := (46 : UInt8) ∉ buffer.bytes ∧ (101 : UInt8) ∉ buffer.bytes
      let text := if integral then buffer ++ .ofBytes [46, 48] else buffer
      let start := text.bytes.takeWhile (· != 101)
      let exponent := (text.bytes.dropWhile (· != 101)).drop 1
      if buffer.strlen ≥ maxRealStrLength then none
      else if integral ∧ buffer.strlen + 3 ≥ maxRealStrLength then none
      else if (101 : UInt8) ∉ text.bytes then some text
      else
        let sign := if exponent.head? = some 45 then [45] else []
        some (.ofBytes (start ++ [101] ++ sign ++ (exponent.drop 1).dropWhile (· == 48)))

/-- The parts with the separator between each two neighbours. -/
def joinWith (separator : CString) : List CString → CString
  | [] => .ofBytes []
  | [part] => part
  | part :: next :: parts => part ++ separator ++ joinWith separator (next :: parts)

def comma : CString := .ofBytes [44, 32]

def dumpValue (printf : UInt64 → Option CString) : JsonValue → Option CString
  | .string s => dumpString s
  | .integer n => some (formatInteger n)
  | .real value => jsonpDtostr printf value
  | .boolean b => some (if b then .lit "true" else .lit "false")
  | .strings items =>
      (items.mapM dumpString).map fun parts => .ofBytes [91] ++ joinWith comma parts ++ .ofBytes [93]

/-- Whether the key could be written is not looked at; keys are checked when they
are set. -/
def dumpPair (printf : UInt64 → Option CString) (pair : JsonPair) : Option CString :=
  (dumpValue printf pair.2).map fun value =>
    (dumpString pair.1).getD (.ofBytes []) ++ .ofBytes [58, 32] ++ value

def jsonDumps (printf : UInt64 → Option CString) (json : JsonObject) : Option CString :=
  (json.pairs.mapM (dumpPair printf)).map fun parts =>
    .ofBytes [123] ++ joinWith comma parts ++ .ofBytes [125]

/-! ## Which strings can be written -/

theorem dumpLoop_isSome (fuel : Nat) (pos : CString) (hfuel : pos.strlen ≤ fuel) :
    (dumpLoop fuel pos).isSome = utf8CheckLoop fuel pos.bytes := by
  induction fuel generalizing pos with
  | zero => rfl
  | succ fuel ih =>
      cases hbytes : pos.bytes with
      | nil => simp [dumpLoop, utf8CheckLoop, CString.strlen, hbytes]
      | cons u rest =>
          have hlength : pos.strlen = rest.length + 1 := by simp [CString.strlen, hbytes]
          rw [utf8CheckLoop_cons, dumpLoop, if_neg (by omega), hbytes]
          cases hiterate : utf8Iterate (u :: rest) with
          | none => rfl
          | some character =>
              obtain ⟨codepoint, count⟩ := character
              have hpos := (utf8Iterate_starts (List.cons_ne_nil u rest) hiterate).pos
              have hleft : (pos.drop count).strlen ≤ fuel := by
                have hdrop : (pos.drop count).strlen = pos.strlen - count := List.length_drop
                omega
              rw [Option.isSome_map, ih _ hleft, CString.drop_bytes, hbytes]
              rfl

theorem dumpString_isSome (s : CString) : (dumpString s).isSome = utf8CheckString s := by
  rw [dumpString, Option.isSome_map]
  exact dumpLoop_isSome s.strlen s le_rfl

theorem mapM_isSome_iff {α : Type} {f : α → Option CString} {xs : List α} : (xs.mapM f).isSome ↔ ∀ x ∈ xs, (f x).isSome := by
  induction xs with
  | nil => simp
  | cons x xs ih =>
      rw [List.mapM_cons, List.forall_mem_cons, ← ih]
      cases f x with
      | none => simp
      | some text => cases xs.mapM f <;> simp

/-- `%.17g` prints every number, and takes 24 characters at most. -/
def WritesReals (printf : UInt64 → Option CString) : Prop :=
  ∀ value, ∃ text, printf value = some text ∧ text.strlen ≤ 24

theorem WritesReals.jsonpDtostr_isSome {printf : UInt64 → Option CString} (h : WritesReals printf)
    (value : UInt64) : (jsonpDtostr printf value).isSome := by
  obtain ⟨text, htext, hlength⟩ := h value
  have hmax : maxRealStrLength = 100 := rfl
  have hboth : ∀ (p : Prop) [Decidable p] (a b : CString),
      (if p then some a else some b).isSome = true := by
    intro p _ a b
    split <;> rfl
  unfold jsonpDtostr
  simp only [htext]
  rw [if_neg (by omega), if_neg (by omega)]
  exact hboth _ _ _

/-- The strings in a value. -/
def JsonValue.texts : JsonValue → List CString
  | .string s => [s]
  | .strings items => items
  | _ => []

/-- A value can be written as soon as its strings are UTF-8. -/
theorem dumpValue_isSome_iff {printf : UInt64 → Option CString} (hreals : WritesReals printf)
    (value : JsonValue) :
    (dumpValue printf value).isSome ↔ ∀ s ∈ value.texts, utf8CheckString s = true := by
  cases value with
  | string s => simp [dumpValue, JsonValue.texts, dumpString_isSome]
  | integer n => simp [dumpValue, JsonValue.texts]
  | real bits => simp [dumpValue, JsonValue.texts, hreals.jsonpDtostr_isSome]
  | boolean b => simp [dumpValue, JsonValue.texts]
  | strings items =>
      rw [dumpValue, Option.isSome_map, mapM_isSome_iff, JsonValue.texts]
      exact forall₂_congr fun s _ => by rw [dumpString_isSome]

/-! ## How long the texts get -/

theorem utf8CheckFull_ge {buffer : Bytes} {size value : Nat}
    (h : utf8CheckFull buffer size = some value) : 128 ≤ value := by
  unfold utf8CheckFull at h
  simp only [Option.ite_none_left_eq_some, Option.some.injEq] at h
  obtain ⟨hsize, -, -, -, hoverlong, hvalue⟩ := h
  rw [hvalue] at hoverlong
  omega

theorem escape_of_ge {codepoint : Nat} (h : 128 ≤ codepoint) : escape codepoint = none := by
  unfold escape
  simp only [show codepoint ≠ 92 by omega, show codepoint ≠ 34 by omega,
    show codepoint ≠ 8 by omega, show codepoint ≠ 12 by omega, show codepoint ≠ 10 by omega,
    show codepoint ≠ 13 by omega, show codepoint ≠ 9 by omega,
    show ¬ codepoint < 32 by omega, if_false]

theorem escape_strlen_pos {codepoint : Nat} {text : CString} (h : escape codepoint = some text) :
    1 ≤ text.strlen := by
  unfold escape at h
  -- every escape starts with a backslash
  have hfirst : ∀ rest : Bytes, 1 ≤ (CString.ofBytes (92 :: rest)).strlen := by
    intro rest
    simp [CString.strlen, CString.ofBytes]
  repeat' split at h
  all_goals first | (cases h; exact hfirst _) | cases h

theorem escaped_piece {pos : Bytes} {codepoint count : Nat}
    (h : utf8Iterate pos = some (codepoint, count)) :
    1 ≤ count ∧ (count = 1 ∨ escape codepoint = none) := by
  unfold utf8Iterate at h
  simp only [] at h
  split at h
  · cases h
  · rename_i hzero
    split at h
    · cases h
      exact ⟨le_rfl, .inl rfl⟩
    · obtain ⟨value, hfull, hpair⟩ := Option.map_eq_some_iff.mp h
      cases hpair
      exact ⟨Nat.pos_of_ne_zero hzero, .inr (escape_of_ge (utf8CheckFull_ge hfull))⟩

/-- Escaping shortens no string. -/
theorem dumpLoop_strlen {fuel : Nat} {pos text : CString} (hfuel : pos.strlen ≤ fuel)
    (h : dumpLoop fuel pos = some text) : pos.strlen ≤ text.strlen := by
  induction fuel generalizing pos text with
  | zero => omega
  | succ fuel ih =>
      by_cases hempty : pos.strlen = 0
      · omega
      · simp only [dumpLoop, hempty, if_false] at h
        split at h
        · cases h
        · rename_i codepoint count hiterate
          obtain ⟨rest, hrest, rfl⟩ := Option.map_eq_some_iff.mp h
          obtain ⟨hcount, hone⟩ := escaped_piece hiterate
          have hdrop : (pos.drop count).strlen = pos.strlen - count := List.length_drop
          have htake : (pos.take count).strlen = min count pos.strlen := List.length_take
          have hpiece : min count pos.strlen ≤
              ((escape codepoint).getD (pos.take count)).strlen := by
            cases hescape : escape codepoint with
            | none => exact le_of_eq htake.symm
            | some piece =>
                have hpos := escape_strlen_pos hescape
                rw [hescape] at hone
                have hsingle : count = 1 := hone.resolve_right (by simp)
                rw [Option.getD_some]
                omega
          have hle := ih (by omega) hrest
          rw [CString.strlen_append]
          omega

theorem dumpString_strlen {str text : CString} (h : dumpString str = some text) :
    str.strlen + 2 ≤ text.strlen := by
  obtain ⟨inner, hinner, rfl⟩ := Option.map_eq_some_iff.mp h
  have hle := dumpLoop_strlen le_rfl hinner
  have hquote : quote.strlen = 1 := by decide
  simp only [CString.strlen_append]
  omega

theorem joinWith_strlen (separator : CString) {parts : List CString} (hne : parts ≠ []) :
    (joinWith separator parts).strlen + separator.strlen =
      (parts.map fun part => part.strlen + separator.strlen).sum := by
  induction parts with
  | nil => exact absurd rfl hne
  | cons part parts ih =>
      cases parts with
      | nil => simp [joinWith]
      | cons next parts =>
          have hrest := ih (List.cons_ne_nil next parts)
          rw [List.map_cons, List.sum_cons, ← hrest, joinWith]
          simp only [CString.strlen_append]
          omega

/-- What a pair adds to the text of an object, the separator behind it included. -/
def entrySize (printf : UInt64 → Option CString) (pair : JsonPair) : Nat :=
  (dumpPair printf pair).elim 0 CString.strlen + comma.strlen

theorem mapM_sizes {α : Type} {f : α → Option CString} {xs : List α} {texts : List CString} (h : xs.mapM f = some texts) (n : Nat) :
    texts.map (fun text => text.strlen + n) =
      xs.map fun x => (f x).elim 0 CString.strlen + n := by
  induction xs generalizing texts with
  | nil => cases h; rfl
  | cons x xs ih =>
      rw [List.mapM_cons] at h
      cases hx : f x with
      | none => simp [hx] at h
      | some text =>
          cases hxs : xs.mapM f with
          | none => simp [hx, hxs] at h
          | some texts' =>
              obtain rfl : text :: texts' = texts := by simpa [hx, hxs] using h
              rw [List.map_cons, List.map_cons, ih hxs, hx]
              rfl

/-- An object can be written as soon as all its values can. -/
theorem jsonDumps_isSome_iff {printf : UInt64 → Option CString} {json : JsonObject} :
    (jsonDumps printf json).isSome ↔ ∀ p ∈ json.pairs, (dumpValue printf p.2).isSome := by
  rw [jsonDumps, Option.isSome_map, mapM_isSome_iff]
  refine forall₂_congr fun p _ => ?_
  rw [dumpPair, Option.isSome_map]

theorem jsonDumps_strlen_pos {printf : UInt64 → Option CString} {json : JsonObject}
    {text : CString} (h : jsonDumps printf json = some text) : 0 < text.strlen := by
  obtain ⟨parts, -, rfl⟩ := Option.map_eq_some_iff.mp h
  have hbrace : (CString.ofBytes [123]).strlen = 1 := by decide
  rw [CString.strlen_append, CString.strlen_append]
  omega

theorem jsonDumps_strlen {printf : UInt64 → Option CString} {json : JsonObject} {text : CString}
    (h : jsonDumps printf json = some text) (hne : json.pairs ≠ []) :
    text.strlen = (json.pairs.map (entrySize printf)).sum := by
  unfold jsonDumps at h
  obtain ⟨parts, hparts, rfl⟩ := Option.map_eq_some_iff.mp h
  have hsizes := mapM_sizes hparts comma.strlen
  have hparts : parts ≠ [] := by
    rintro rfl
    exact hne (List.map_eq_nil_iff.mp hsizes.symm)
  have hjoined := joinWith_strlen comma hparts
  rw [hsizes] at hjoined
  have hcomma : comma.strlen = 2 := by decide
  have hbraces : (CString.ofBytes [123]).strlen = 1 ∧ (CString.ofBytes [125]).strlen = 1 := by
    decide
  unfold entrySize
  simp only [CString.strlen_append]
  omega

end Neb2Amqp
