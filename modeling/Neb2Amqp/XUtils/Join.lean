import Neb2Amqp.XUtils.JoinBuffer

/-!
# When n2a_str_join joins

`n2a_str_join` decides by the length of the result whether a delimiter is due, so that
empty strings at the front get none. Behind a first string that is not empty it joins
whatever `xstrlen` can count.
-/

namespace Neb2Amqp

open CLib

section
variable {fill : Nat → Nat → UInt8} {delim p text : CString} {ps : List CString}
  {s s' : JoinState} {i : Nat}

theorem strlen_joinedWith_le (delim : CString) (ret : Option CString) (p : CString) :
    (joinedWith delim ret p).strlen ≤ xstrlen ret + (delim.strlen + p.strlen) := by
  have hdelim : xstrlen (some delim) = min delim.strlen uintMax := rfl
  rw [strlen_joinedWith]
  split <;> omega

theorem joinLoop_cons : joinLoop (fun i => some (fill i)) delim ((p :: ps).map some) s i =
    joinIteration (fill i) delim p s >>= fun s =>
      joinLoop (fun i => some (fill i)) delim (ps.map some) s (i + 1) := rfl

theorem joinLoop_strlen_le (htext : s.text = some text)
    (h : joinLoop (fun i => some (fill i)) delim (ps.map some) s i = .ok s') :
    ∃ text', s'.text = some text' ∧
      text'.strlen ≤ text.strlen + (ps.map fun p => delim.strlen + p.strlen).sum := by
  induction ps generalizing s text i with
  | nil =>
      cases h
      exact ⟨text, htext, Nat.le_refl _⟩
  | cons p ps ih =>
      rw [joinLoop_cons] at h
      obtain ⟨next, hnext, h⟩ := bind_ok h
      obtain ⟨text', htext', hle⟩ := ih (joinIteration_ok hnext).1 h
      have hstep := strlen_joinedWith_le delim s.text p
      have hcount : xstrlen s.text ≤ text.strlen := by
        rw [htext]
        exact Nat.min_le_left _ _
      refine ⟨text', htext', ?_⟩
      rw [List.map_cons, List.sum_cons]
      omega

theorem joinIteration_appends (fill : Nat → UInt8) (htext : s.text = some text)
    (hlength : s.length = text.strlen) (hcount : text.strlen ≤ uintMax)
    (hhead : 0 < text.strlen ∨ delim.strlen = 0) (hdelim : delim.strlen ≤ uintMax)
    (hp : p.strlen ≤ uintMax) :
    ∃ s', joinIteration fill delim p s = .ok s' ∧ s'.text = some (text ++ delim ++ p) ∧
      s'.length = (text ++ delim ++ p).strlen := by
  have hlen : xstrlen s.text = text.strlen := by
    rw [htext]
    exact Nat.min_eq_left hcount
  have hdelimCount : xstrlen (some delim) = delim.strlen := Nat.min_eq_left hdelim
  have hpCount : xstrlen (some p) = p.strlen := Nat.min_eq_left hp
  obtain ⟨s', hok⟩ := joinIteration_inside_of_counted fill (hlength.trans hlen.symm)
    (fun _ => hdelim) hp
  obtain ⟨hwith, hcounted, -, -⟩ := joinIteration_ok hok
  refine ⟨s', hok, by rw [hwith, htext, joinedWith_eq hhead hcount hdelim], ?_⟩
  rw [hcounted, JoinState.count, hlen, hlength, CString.strlen_append, CString.strlen_append]
  split <;> omega

theorem fits_of_appended {fill : Nat → UInt8} (htext : s.text = some text)
    (hlength : s.length = text.strlen) (hcount : text.strlen ≤ uintMax)
    (hok : joinIteration fill delim p s = .ok s')
    (hjoined : s'.text = some (text ++ delim ++ p)) :
    delim.strlen ≤ uintMax ∧ p.strlen ≤ uintMax := by
  have hlen : xstrlen s.text = text.strlen := by
    rw [htext]
    exact Nat.min_eq_left hcount
  have hdelim : xstrlen (some delim) = min delim.strlen uintMax := rfl
  have hp : xstrlen (some p) = min p.strlen uintMax := rfl
  obtain ⟨hwith, -, -, hroom⟩ := joinIteration_ok hok
  rw [hwith, Option.some.injEq] at hjoined
  have hsame := congrArg CString.strlen hjoined
  rw [strlen_joinedWith, CString.strlen_append, CString.strlen_append, hlen] at hsame
  rw [JoinState.place, JoinState.count, hlen, hlength] at hroom
  by_cases hpos : 0 < text.strlen
  · rw [if_pos hpos] at hsame hroom
    omega
  · rw [if_neg hpos] at hsame hroom
    omega

/-- What the join makes of `text` and the strings behind it. -/
def appendAll (delim text : CString) (ps : List CString) : CString :=
  ps.foldl (fun text p => text ++ delim ++ p) text

theorem appendAll_bytes (delim text : CString) (ps : List CString) :
    (appendAll delim text ps).bytes = joined delim (text :: ps) := by
  rw [joined, List.map_cons, intercalate_cons]
  induction ps generalizing text with
  | nil => exact (List.append_nil _).symm
  | cons p ps ih =>
      rw [appendAll, List.foldl_cons, ← appendAll, ih, List.map_cons, List.flatMap_cons,
        ← List.append_assoc, ← List.append_assoc]
      rfl

theorem length_joined (delim text : CString) (ps : List CString) :
    (joined delim (text :: ps)).length =
      text.strlen + (ps.map fun p => delim.strlen + p.strlen).sum := by
  rw [joined, List.map_cons, length_intercalate_cons, List.map_map]
  rfl

theorem strlen_appendAll (delim text : CString) (ps : List CString) :
    (appendAll delim text ps).strlen =
      text.strlen + (ps.map fun p => delim.strlen + p.strlen).sum := by
  rw [CString.strlen, appendAll_bytes, length_joined]

theorem joinLoop_strlen_le_uintMax (hne : ps ≠ [])
    (h : joinLoop (fun i => some (fill i)) delim (ps.map some) s i = .ok s') :
    ∃ text', s'.text = some text' ∧
      text'.strlen ≤ uintMax + (ps.map fun p => delim.strlen + p.strlen).sum := by
  obtain ⟨p, rest, rfl⟩ := List.exists_cons_of_ne_nil hne
  obtain ⟨next, hnext, h⟩ := bind_ok (joinLoop_cons ▸ h)
  obtain ⟨text', htext', hle⟩ := joinLoop_strlen_le (joinIteration_ok hnext).1 h
  have hstep := strlen_joinedWith_le delim s.text p
  have hcount := xstrlen_le_uintMax s.text
  refine ⟨text', htext', ?_⟩
  rw [List.map_cons, List.sum_cons]
  omega

/-- The loop behind a string that is counted right appends every string with the delimiter
exactly if all that it measures with `xstrlen` is counted right. The last string may make
the result longer than that, as nothing measures it any more. -/
theorem joinLoop_appends_iff (mid : List CString) (last : CString) (htext : s.text = some text)
    (hlength : s.length = text.strlen) (hcount : text.strlen ≤ uintMax)
    (hhead : 0 < text.strlen ∨ delim.strlen = 0) :
    (∃ s', joinLoop (fun i => some (fill i)) delim ((mid ++ [last]).map some) s i = .ok s' ∧
        s'.text = some (appendAll delim text (mid ++ [last]))) ↔
      delim.strlen ≤ uintMax ∧ last.strlen ≤ uintMax ∧
        text.strlen + (mid.map fun p => delim.strlen + p.strlen).sum ≤ uintMax := by
  induction mid generalizing s text i with
  | nil =>
      rw [List.map_nil, List.sum_nil, Nat.add_zero, List.nil_append, joinLoop_cons]
      constructor
      · rintro ⟨s', hloop, htext'⟩
        obtain ⟨next, hnext, hdone⟩ := bind_ok hloop
        cases hdone
        obtain ⟨hdelim, hlast⟩ := fits_of_appended htext hlength hcount hnext htext'
        exact ⟨hdelim, hlast, hcount⟩
      · rintro ⟨hdelim, hlast, -⟩
        obtain ⟨s', hnext, htext', -⟩ :=
          joinIteration_appends (fill i) htext hlength hcount hhead hdelim hlast
        rw [hnext]
        exact ⟨s', rfl, htext'⟩
  | cons p mid ih =>
      have hnextLength : (text ++ delim ++ p).strlen = text.strlen + (delim.strlen + p.strlen) := by
        rw [CString.strlen_append, CString.strlen_append, Nat.add_assoc]
      rw [List.map_cons, List.sum_cons, ← Nat.add_assoc, ← hnextLength, List.cons_append,
        joinLoop_cons]
      by_cases hfits : (text ++ delim ++ p).strlen ≤ uintMax
      · obtain ⟨next, hnext, htext', hlen⟩ := joinIteration_appends (fill i) htext hlength hcount
          hhead (show delim.strlen ≤ uintMax by omega) (show p.strlen ≤ uintMax by omega)
        have hnextHead : 0 < (text ++ delim ++ p).strlen ∨ delim.strlen = 0 := by omega
        rw [← ih htext' hlen hfits hnextHead, hnext]
        rfl
      · -- the string is too long for the next call of `xstrlen`
        constructor
        · rintro ⟨s', hloop, htext'⟩
          obtain ⟨next, hnext, hloop⟩ := bind_ok hloop
          obtain ⟨text', hlast, hle⟩ := joinLoop_strlen_le_uintMax (by simp) hloop
          rw [htext', Option.some.injEq] at hlast
          rw [← hlast, appendAll, List.foldl_cons, ← appendAll, strlen_appendAll] at hle
          omega
        · rintro ⟨-, -, hle⟩
          omega

/-! ## From the first string on -/

/-- The first string is copied whole if `xstrlen` counts it right, and leaves its block otherwise. -/
theorem joinIteration_start_iff (fill : Nat → UInt8) (delim first : CString) :
    (∃ s', joinIteration fill delim first .start = .ok s') ↔ first.strlen ≤ uintMax := by
  have hcount : JoinState.start.count delim first = xstrlen (some first) := Nat.zero_add _
  constructor
  · rintro ⟨s', hok⟩
    obtain ⟨-, -, -, hroom⟩ := joinIteration_ok hok
    have hle := xstrlen_le_uintMax (some first)
    omega
  · intro hfirst
    exact joinIteration_inside_of_counted fill rfl
      (fun hpos => absurd hpos (Nat.lt_irrefl 0)) hfirst

theorem joinIteration_start {fill : Nat → UInt8} {first : CString}
    (hok : joinIteration fill delim first .start = .ok s') :
    s'.text = some first ∧ s'.length = xstrlen (some first) := by
  obtain ⟨htext, hlength, -, -⟩ := joinIteration_ok hok
  have hone : joinedWith delim none first = first := CString.ext rfl
  exact ⟨htext.trans (congrArg some hone), hlength.trans (Nat.zero_add _)⟩

/-- Behind an empty string no delimiter is copied. -/
theorem not_joined_of_empty {first : CString} (hfirst : first.strlen = 0)
    (hdelim : 0 < delim.strlen) (hne : ps ≠ []) (htext : s.text = some first)
    (h : joinLoop (fun i => some (fill i)) delim (ps.map some) s i = .ok s') :
    s'.text ≠ some (appendAll delim first ps) := by
  obtain ⟨p, rest, rfl⟩ := List.exists_cons_of_ne_nil hne
  rw [joinLoop_cons] at h
  obtain ⟨next, hnext, h⟩ := bind_ok h
  obtain ⟨text', htext', hle⟩ := joinLoop_strlen_le (joinIteration_ok hnext).1 h
  have hcount : xstrlen s.text = 0 := by
    rw [htext, xstrlen_some, hfirst, Nat.zero_min]
  rw [strlen_joinedWith, hcount, if_neg (Nat.lt_irrefl 0)] at hle
  intro hsame
  rw [htext', Option.some.injEq] at hsame
  rw [hsame, strlen_appendAll, List.map_cons, List.sum_cons] at hle
  omega

theorem n2aStrJoinBlock_text_iff {heap : Nat → Option (Nat → UInt8)}
    {args : List (Option CString)} {bytes : Bytes} :
    (∃ block, n2aStrJoinBlock heap delim args = .ok (some block) ∧
        (textAt block 0).bytes = bytes) ↔
      ∃ s' text, joinLoop heap delim args .start 0 = .ok s' ∧ s'.text = some text ∧
        text.bytes = bytes := by
  constructor
  · rintro ⟨block, hjoin, hbytes⟩
    obtain ⟨s', hloop, hret⟩ := bind_ok hjoin
    refine ⟨s', textAt block 0, hloop, ?_, hbytes⟩
    rw [JoinState.text, Except.ok.inj hret]
    rfl
  · rintro ⟨s', text, hloop, htext, hbytes⟩
    obtain ⟨block, hret, hblock⟩ := Option.map_eq_some_iff.mp htext
    refine ⟨block, ?_, by rw [hblock, hbytes]⟩
    rw [n2aStrJoinBlock, hloop]
    exact congrArg Except.ok hret

end

/-- With `realloc` succeeding, the strings come back joined exactly if the first is not empty
where a delimiter is due behind it, and `xstrlen` counts the delimiter, the last string and
the join of those before it. -/
theorem n2aStrJoin_joined_iff (fill : Nat → Nat → UInt8) (delim : CString)
    (front : List CString) (last : CString) :
    (∃ block, n2aStrJoinBlock (fun i => some (fill i)) delim ((front ++ [last]).map some) =
          .ok (some block) ∧
        (textAt block 0).bytes = joined delim (front ++ [last])) ↔
      (∀ first ∈ front.head?, (0 < first.strlen ∨ delim.strlen = 0) ∧ delim.strlen ≤ uintMax) ∧
        last.strlen ≤ uintMax ∧ (joined delim front).length ≤ uintMax := by
  rw [n2aStrJoinBlock_text_iff]
  cases front with
  | nil =>
      have hnone : (joined delim []).length = 0 := rfl
      have hone : joined delim ([] ++ [last]) = last.bytes := List.intercalate_singleton
      rw [hnone, hone, List.nil_append, joinLoop_cons]
      constructor
      · rintro ⟨s', text, hloop, -, -⟩
        obtain ⟨next, hnext, -⟩ := bind_ok hloop
        exact ⟨by simp, (joinIteration_start_iff (fill 0) delim last).mp ⟨next, hnext⟩, by decide⟩
      · rintro ⟨-, hlast, -⟩
        obtain ⟨next, hnext⟩ := (joinIteration_start_iff (fill 0) delim last).mpr hlast
        rw [hnext]
        exact ⟨next, last, rfl, (joinIteration_start hnext).1, rfl⟩
  | cons first mid =>
      rw [List.cons_append, joinLoop_cons, length_joined, ← appendAll_bytes]
      constructor
      · rintro ⟨s', text, hloop, htext, hbytes⟩
        obtain ⟨next, hnext, hloop⟩ := bind_ok hloop
        have hfirst := (joinIteration_start_iff (fill 0) delim first).mp ⟨next, hnext⟩
        obtain ⟨hnextText, hnextLength⟩ := joinIteration_start hnext
        have hjoined : s'.text = some (appendAll delim first (mid ++ [last])) := by
          rw [htext, CString.ext hbytes]
        have hhead : 0 < first.strlen ∨ delim.strlen = 0 := by
          by_contra hempty
          exact not_joined_of_empty (by omega) (by omega) (by simp) hnextText hloop hjoined
        obtain ⟨hdelim, hlast, hmid⟩ := (joinLoop_appends_iff mid last hnextText
          (hnextLength.trans (Nat.min_eq_left hfirst)) hfirst hhead).mp ⟨s', hloop, hjoined⟩
        exact ⟨by simpa using ⟨hhead, hdelim⟩, hlast, hmid⟩
      · rintro ⟨hfirst, hlast, hmid⟩
        obtain ⟨hhead, hdelim⟩ := hfirst first rfl
        have hle : first.strlen ≤ uintMax := by omega
        obtain ⟨next, hnext⟩ := (joinIteration_start_iff (fill 0) delim first).mpr hle
        obtain ⟨hnextText, hnextLength⟩ := joinIteration_start hnext
        obtain ⟨s', hloop, hjoined⟩ := (joinLoop_appends_iff mid last hnextText
          (hnextLength.trans (Nat.min_eq_left hle)) hle hhead).mpr ⟨hdelim, hlast, hmid⟩
        rw [hnext]
        exact ⟨s', _, hloop, hjoined, rfl⟩

/-- An empty string and `a` come back without the delimiter between them. -/
theorem n2aStrJoin_not_joined : ¬ ∀ (fill : Nat → Nat → UInt8) (delim : CString)
    (ps : List CString), ps ≠ [] →
      ∃ block, n2aStrJoinBlock (fun i => some (fill i)) delim (ps.map some) = .ok (some block) ∧
        (textAt block 0).bytes = joined delim ps := by
  intro hjoins
  obtain ⟨block, hjoin, htext⟩ :=
    hjoins (fun _ _ => 165) (.ofBytes [46]) [.ofBytes [], .ofBytes [97]] (List.cons_ne_nil _ _)
  have hresult : n2aStrJoinBlock (fun _ => some fun _ => 165) (.ofBytes [46])
      ([.ofBytes [], .ofBytes [97]].map some) = .ok (some [97, 0]) := by decide
  rw [hresult] at hjoin
  cases hjoin
  exact absurd htext (by decide)

end Neb2Amqp
