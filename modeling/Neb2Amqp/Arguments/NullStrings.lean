import Mathlib.Data.List.Induction
import Neb2Amqp.Arguments.Settings

/-!
# NULL among the string options

Parsing goes wrong on the empty text, of which `xstrdup` makes no copy, and it leaves the
host name NULL after a field that is nothing but `=`.
-/

namespace Neb2Amqp

open CLib

/-- The field ends up in one of the branches that set `hostname`. -/
def setsHost (f : Bytes) : Bool := fieldValue f = [] || fieldHandling f = some .host

/-! ## One field -/

theorem hostSettings_hostname (w : Bytes) :
    ∃ s, lastSetting (.str .hostname) (hostSettings w) = some (.str s) ∧ (s = none ↔ w = []) := by
  unfold hostSettings
  by_cases hw : w = []
  · rw [if_pos hw]
    exact ⟨none, rfl, by simp [hw]⟩
  · rw [if_neg hw]
    split
    · exact ⟨_, rfl, by simp [hw]⟩
    · exact ⟨_, rfl, by simp [hw]⟩

/-- A field that is not empty has an empty key and no value exactly if it is a lone `=`. -/
theorem fieldKey_eq_nil_iff {f : Bytes} (hne : f ≠ []) (hvalue : fieldValue f = []) :
    fieldKey f = [] ↔ f = [61] := by
  constructor
  · intro hkey
    by_cases hmem : 61 ∈ f
    · have hsplit := before_append_after hmem
      rw [show before 61 f = [] from hkey, show after 61 f = [] from hvalue] at hsplit
      exact hsplit.symm
    · exact absurd ((before_of_not_mem hmem).symm.trans hkey) hne
  · rintro rfl
    rfl

section
variable {f : Bytes}

theorem fieldSettings_hostname (hne : f ≠ []) (hsets : setsHost f = true) :
    ∃ s, lastSetting (.str .hostname) (fieldSettings f) = some (.str s) ∧
      (s = none ↔ f = [61]) := by
  unfold fieldSettings
  by_cases hvalue : fieldValue f = []
  · rw [if_pos hvalue, ← fieldKey_eq_nil_iff hne hvalue]
    exact hostSettings_hostname (fieldKey f)
  · have hhandling : fieldHandling f = some .host := by simpa [setsHost, hvalue] using hsets
    have hlone : f ≠ [61] := by
      rintro rfl
      exact hvalue rfl
    obtain ⟨s, hs, hnull⟩ := hostSettings_hostname (fieldValue f)
    rw [if_neg hvalue, hhandling]
    exact ⟨s, hs, iff_of_false (fun h => hvalue (hnull.mp h)) hlone⟩

theorem fieldSettings_of_not_setsHost (hsets : setsHost f = false) :
    lastSetting (.str .hostname) (fieldSettings f) = none := by
  obtain ⟨hvalue, hhost⟩ : fieldValue f ≠ [] ∧ fieldHandling f ≠ some .host := by
    simpa [setsHost] using hsets
  rw [lastSetting_eq_none_iff, fieldSettings, if_neg hvalue]
  cases hhandling : fieldHandling f with
  | none => exact fun s hs => absurd hs List.not_mem_nil
  | some h =>
      intro s hs hname
      have hnames : .str .hostname ∈ h.names := hname ▸ Handling.settings_name hs
      exact hhost (handling_of_hostname hhandling hnames ▸ hhandling)

theorem hostSettings_str {x : StrOption} (hx : x ≠ .hostname) (w : Bytes) :
    .str x none ∉ hostSettings w := by
  intro hs
  have hname := hostSettings_name hs
  simp [Setting.name, Handling.names, hx] at hname

theorem Handling.settings_str {x : StrOption} (hx : x ≠ .hostname) (h : Handling) (w : Bytes) :
    .str x none ∉ h.settings w := by
  intro hs
  cases h with
  | host => exact hostSettings_str hx w hs
  | text y => cases List.mem_singleton.mp hs
  | number | purge | rate | flush =>
      have hname := settings_name hs
      simp [Setting.name, names] at hname

theorem fieldSettings_str {x : StrOption} (hx : x ≠ .hostname) : .str x none ∉ fieldSettings f := by
  unfold fieldSettings
  split
  · exact hostSettings_str hx (fieldKey f)
  · cases fieldHandling f with
    | none => exact List.not_mem_nil
    | some h => exact h.settings_str hx (fieldValue f)

end

/-! ## All fields -/

/-- What the host name was, or what the last field that sets it makes of it. -/
theorem foldl_hostname_null_iff {g : Values} (hg : g.str .hostname ≠ none) (fs : List Bytes)
    (hne : ∀ f ∈ fs, f ≠ []) :
    (fs.foldl applyField g).str .hostname = none ↔ (fs.filter setsHost).getLast? = some [61] := by
  have hget : ∀ v : Values, v.str .hostname = none ↔ v.get (.str .hostname) = .str none := by
    simp [Settings.get]
  induction fs using List.reverseRecOn with
  | nil => simpa using hg
  | append_singleton fs f ih =>
      have hbefore : (fs.foldl applyField g).str .hostname = none ↔
          (fs.filter setsHost).getLast? = some [61] :=
        ih fun f' hf' => hne f' (List.mem_append_left [f] hf')
      have hf := hne f (List.mem_append_right fs List.mem_cons_self)
      rw [List.foldl_append, List.foldl_cons, List.foldl_nil, List.filter_append, hget, applyField_get]
      cases hsets : setsHost f with
      | false =>
          rw [fieldSettings_of_not_setsHost hsets, Option.getD_none, ← hget, hbefore]
          simp [hsets]
      | true =>
          obtain ⟨s, hs, hnull⟩ := fieldSettings_hostname hf hsets
          rw [hs, Option.getD_some]
          simp [hsets, hnull]

theorem foldl_str_ne_none {x : StrOption} (hx : x ≠ .hostname) (fs : List Bytes) {g : Values}
    (hg : g.str x ≠ none) : (fs.foldl applyField g).str x ≠ none := by
  induction fs generalizing g with
  | nil => exact hg
  | cons f fs ih =>
      apply ih
      intro hnone
      have hget : (applyField g f).get (.str x) = .str none := congrArg OptionValue.str hnone
      rw [applyField_get] at hget
      cases hlast : lastSetting (.str x) (fieldSettings f) with
      | none =>
          rw [hlast] at hget
          exact hg (OptionValue.str.inj hget)
      | some v =>
          rw [hlast] at hget
          obtain ⟨s, hs, hname, hvalue⟩ := exists_of_lastSetting hlast
          cases s with
          | int y n => cases hname
          | str y text =>
              cases hname
              rw [Option.getD_some, ← hvalue] at hget
              rw [OptionValue.str.inj hget] at hs
              exact fieldSettings_str hx hs

/-! ## n2a_parse_arguments -/

/-- The parser reads through no NULL, comes back, and leaves no string NULL that was set. -/
structure ParsesSafely (text : CString) (o : Options) : Prop where
  noNull : ∀ n, n2aParseArguments n (some text) o ≠ .error .null
  strings : ∃ n o', n2aParseArguments n (some text) o = .ok (true, o') ∧
    ∀ x, o.settings.str x ≠ none → o'.settings.str x ≠ none

/-- It does for the texts that `xstrdup` can copy and in which another field that sets
the host name follows every lone `=`. -/
theorem parsesSafely_iff (text : CString) :
    ParsesSafely text Options.default ↔ text.bytes ≠ [] ∧ text.strlen ≤ uintMax ∧
      ((fields text).filter setsHost).getLast? ≠ some [61] := by
  have hnull := foldl_hostname_null_iff (show Options.default.settings.str .hostname ≠ none from nofun)
    (fields text) fun f hf => ne_nil_of_mem_words hf
  constructor
  · intro h
    obtain ⟨n, o', hparse, hstrings⟩ := h.strings
    obtain ⟨hne, hle, rfl⟩ := n2aParseArguments_returned hparse
    refine ⟨hne, hle, fun hlone => hstrings .hostname nofun ?_⟩
    rw [optionsAfter, Settings.options_settings]
    exact hnull.mpr hlone
  · rintro ⟨hne, hle, hlone⟩
    constructor
    · intro n hstuck
      rw [n2aParseArguments_eq _ n hne hle] at hstuck
      cases hstuck
    · refine ⟨_, _, n2aParseArguments_returns _ hne hle, fun x hx => ?_⟩
      rw [optionsAfter, Settings.options_settings]
      by_cases hhost : x = .hostname
      · rw [hhost]
        exact fun h => hlone (hnull.mp h)
      · exact foldl_str_ne_none hhost _ hx

/-- The empty text is searched through NULL, and a lone `=` leaves no host name. -/
theorem null_arguments : ¬ ParsesSafely (.lit "") Options.default ∧
    ¬ ParsesSafely (.lit "=") Options.default := by
  constructor
  · intro h
    exact h.noNull 1 (n2aParseArguments_empty _ 0 (by decide +kernel))
  · intro h
    obtain ⟨n, o', hparse, hstrings⟩ := h.strings
    obtain ⟨-, -, rfl⟩ := n2aParseArguments_returned hparse
    exact hstrings .hostname nofun (by decide +kernel)

end Neb2Amqp
