import Mathlib.Data.List.Induction
import Neb2Amqp.Arguments.Settings

/-!
# Options and the fields that name them

A field `key=` without a value is taken for a host, whatever its key is. So an option is
set by its own fields alone exactly if all such fields spell what is there already.
-/

namespace Neb2Amqp

open CLib

/-- The field is `key=value` or `key=`, with a key for the option. -/
def Names (f : Bytes) (x : OptionName) : Prop :=
  61 ∈ f ∧ ∃ h, fieldHandling f = some h ∧ x ∈ h.names

def EmptyValue (f : Bytes) : Prop := 61 ∈ f ∧ fieldValue f = []

instance (f : Bytes) : Decidable (EmptyValue f) := inferInstanceAs (Decidable (_ ∧ _))

/-- What a field is there to set: a host if it has no `=`, else the option of its key, if
it has a value. -/
def ownSettings (f : Bytes) : List Setting :=
  if 61 ∉ f then hostSettings f
  else if fieldValue f = [] then []
  else (fieldHandling f).elim [] (Handling.settings (fieldValue f))

/-- The round for field `n` leaves all other options as they are. -/
def ChangesOnly (text : CString) (o : Options) (n : Nat) (named : OptionName → Prop) : Prop :=
  ∀ b b' old new, n2aParseArguments n (some text) o = .ok (b, old) →
    n2aParseArguments (n + 1) (some text) o = .ok (b', new) →
      ∀ x, ¬ named x → new.get x = old.get x

/-- Options are set by their own fields, and the last of these decides. -/
structure SetByOwnFields (text : CString) (o final : Options) : Prop where
  named : ∀ x, final.get x ≠ o.get x →
    ∃ f ∈ fields text, Names f x ∨ (x ∈ Handling.host.names ∧ 61 ∉ f)
  last : ∀ x v, lastSetting x ((fields text).flatMap ownSettings) = some v → final.get x = v
  empty : ∀ before f after, fields text = before ++ f :: after → EmptyValue f →
    ChangesOnly text o before.length (Names f)
  unknown : ∀ before f after, fields text = before ++ f :: after → 61 ∈ f →
    fieldHandling f = none → ChangesOnly text o before.length fun _ => False

/-- The settings of options that the field names. To these belongs that `host=` makes
the host name `host`. -/
def namedSettings (f : Bytes) : List Setting :=
  if EmptyValue f ∧ fieldHandling f = some .host then [.str .hostname (some (.lit "host"))]
  else ownSettings f

/-- What the last of them is, if there is one. -/
def namedValue (o : Options) (fs : List Bytes) (x : OptionName) : OptionValue :=
  (lastSetting x (fs.flatMap namedSettings)).getD (o.get x)

/-- The fields without a value spell what the fields before them have set by name, or what
was there in the first place. One of the key `host` may give the host name its value
`host`, but not for good in place of another that a field has given it. -/
structure HarmlessEmpties (o : Options) (fs : List Bytes) : Prop where
  spelled : ∀ before f after, fs = before ++ f :: after → EmptyValue f →
    fieldHandling f ≠ some .host →
      ∀ s ∈ hostSettings (fieldKey f), namedValue o before s.name = s.value
  host : ∀ before f after v, fs = before ++ f :: after → EmptyValue f →
    fieldHandling f = some .host →
      lastSetting (.str .hostname) (after.flatMap ownSettings) = none →
      lastSetting (.str .hostname) (before.flatMap ownSettings) = some v →
        v = .str (some (.lit "host"))

/-! ## One field -/

section
variable {f : Bytes}

theorem fieldSettings_of_empty (h : EmptyValue f) : fieldSettings f = hostSettings (fieldKey f) :=
  if_pos h.2

theorem ownSettings_of_empty (h : EmptyValue f) : ownSettings f = [] := by
  rw [ownSettings, if_neg (not_not_intro h.1), if_pos h.2]

theorem ownSettings_of_unknown (hmem : 61 ∈ f) (hhandling : fieldHandling f = none) :
    ownSettings f = [] := by
  rw [ownSettings, if_neg (not_not_intro hmem), hhandling]
  exact ite_self []

theorem fieldSettings_of_not_empty (h : ¬ EmptyValue f) : fieldSettings f = ownSettings f := by
  unfold fieldSettings ownSettings
  by_cases hmem : 61 ∈ f
  · have hvalue : fieldValue f ≠ [] := fun hvalue => h ⟨hmem, hvalue⟩
    rw [if_neg hvalue, if_neg (not_not_intro hmem), if_neg hvalue]
  · rw [if_pos (show fieldValue f = [] from after_of_not_mem hmem), if_pos hmem,
      show fieldKey f = f from before_of_not_mem hmem]

theorem lastSetting_hostSettings {w : Bytes} {s : Setting} (hs : s ∈ hostSettings w) :
    lastSetting s.name (hostSettings w) = some s.value := by
  unfold hostSettings at hs ⊢
  split at hs
  · cases List.mem_singleton.mp hs
    rename_i hw
    rw [if_pos hw]
    rfl
  · rename_i hw
    rw [if_neg hw]
    split at hs
    · rename_i hafter
      cases List.mem_singleton.mp hs
      rw [if_pos hafter]
      rfl
    · rename_i hafter
      rw [if_neg hafter]
      cases hs with
      | head => rfl
      | tail _ hs =>
          cases List.mem_singleton.mp hs
          rfl

theorem ownSettings_name {s : Setting} (hs : s ∈ ownSettings f) :
    Names f s.name ∨ (s.name ∈ Handling.host.names ∧ 61 ∉ f) := by
  unfold ownSettings at hs
  by_cases hmem : 61 ∈ f
  · left
    rw [if_neg (not_not_intro hmem)] at hs
    split at hs
    · cases hs
    · cases hhandling : fieldHandling f with
      | none =>
          rw [hhandling] at hs
          cases hs
      | some h =>
          rw [hhandling] at hs
          exact ⟨hmem, h, hhandling, Handling.settings_name hs⟩
  · rw [if_pos hmem] at hs
    exact .inr ⟨hostSettings_name hs, hmem⟩

section
variable (hnul : (0 : UInt8) ∉ f)
include hnul

theorem not_names_of_hostSettings (hhost : fieldHandling f ≠ some .host) {s : Setting}
    (hs : s ∈ hostSettings (fieldKey f)) : ¬ Names f s.name := by
  rintro ⟨-, h, hhandling, hname⟩
  have hne : h ≠ .host := fun heq => hhost (heq ▸ hhandling)
  have hcolon : 58 ∉ fieldKey f := by
    have hall : ∀ p ∈ handlings, 58 ∉ p.1.bytes := by decide +kernel
    have hkey := hall _ (fieldHandling_mem hhandling)
    rw [CString.ofBytes_bytes (w := fieldKey f) (not_mem_before_of hnul)] at hkey
    exact hkey
  have hafter : after 58 (fieldKey f) = [] := after_of_not_mem hcolon
  have hhostname : s.name = .str .hostname := by
    rw [hostSettings, if_pos hafter] at hs
    split at hs <;> cases List.mem_singleton.mp hs <;> rfl
  rw [hhostname] at hname
  exact hne (handling_of_hostname hhandling hname)

theorem hostSettings_host (hhandling : fieldHandling f = some .host) :
    hostSettings (fieldKey f) = [.str .hostname (some (.lit "host"))] := by
  have hall : ∀ p ∈ handlings, p.2 = .host → p.1 = .lit "host" := by decide +kernel
  have hkey := congrArg CString.bytes (hall _ (fieldHandling_mem hhandling) rfl)
  rw [CString.ofBytes_bytes (w := fieldKey f) (not_mem_before_of hnul)] at hkey
  rw [hkey]
  decide +kernel

end

theorem namedSettings_host (hempty : EmptyValue f) (hhandling : fieldHandling f = some .host) :
    namedSettings f = [.str .hostname (some (.lit "host"))] :=
  if_pos ⟨hempty, hhandling⟩

theorem namedSettings_own (h : EmptyValue f → fieldHandling f ≠ some .host) :
    namedSettings f = ownSettings f :=
  if_neg fun hhost => h hhost.1 hhost.2

theorem fieldSettings_named (hnul : (0 : UInt8) ∉ f)
    (h : EmptyValue f → fieldHandling f = some .host) : fieldSettings f = namedSettings f := by
  by_cases hempty : EmptyValue f
  · rw [fieldSettings_of_empty hempty, hostSettings_host hnul (h hempty),
      namedSettings_host hempty (h hempty)]
  · rw [fieldSettings_of_not_empty hempty, namedSettings_own fun he => absurd he hempty]

theorem namedSettings_name {s : Setting} (hs : s ∈ namedSettings f) :
    Names f s.name ∨ (s.name ∈ Handling.host.names ∧ 61 ∉ f) := by
  unfold namedSettings at hs
  split at hs
  · rename_i hhost
    cases List.mem_singleton.mp hs
    exact .inl ⟨hhost.1.1, _, hhost.2, List.mem_cons_self⟩
  · exact ownSettings_name hs

end

/-! ## Field by field -/

theorem exists_last_field {x : OptionName} {v : OptionValue} (settings : Bytes → List Setting)
    {fs : List Bytes} (h : lastSetting x (fs.flatMap settings) = some v) :
    ∃ before f after, fs = before ++ f :: after ∧ lastSetting x (settings f) = some v ∧
      lastSetting x (after.flatMap settings) = none := by
  induction fs with
  | nil => cases h
  | cons f fs ih =>
      rw [List.flatMap_cons, lastSetting_append] at h
      rcases Option.or_eq_some_iff.mp h with hlater | ⟨hnone, hfirst⟩
      · obtain ⟨before, f', after, rfl, hset, hafter⟩ := ih hlater
        exact ⟨f :: before, f', after, rfl, hset, hafter⟩
      · exact ⟨[], f, fs, rfl, hfirst, hnone⟩

theorem lastSetting_split (x : OptionName) (settings : Bytes → List Setting) (before : List Bytes)
    (f : Bytes) (after : List Bytes) :
    lastSetting x ((before ++ f :: after).flatMap settings) =
      (lastSetting x (after.flatMap settings)).or
        ((lastSetting x (settings f)).or (lastSetting x (before.flatMap settings))) := by
  rw [List.flatMap_append, List.flatMap_cons, lastSetting_append, lastSetting_append, Option.or_assoc]

/-- Beside the fields' own settings there is only that of `host=`. -/
theorem namedSettings_of_own {x : OptionName} {v : OptionValue} {fs : List Bytes}
    (hown : lastSetting x (fs.flatMap ownSettings) = none)
    (h : lastSetting x (fs.flatMap namedSettings) = some v) :
    x = .str .hostname ∧ v = .str (some (.lit "host")) ∧
      ∃ before f after, fs = before ++ f :: after ∧ EmptyValue f ∧ fieldHandling f = some .host := by
  obtain ⟨before, f, after, rfl, hset, -⟩ := exists_last_field namedSettings h
  rw [lastSetting_split, Option.or_eq_none_iff, Option.or_eq_none_iff] at hown
  by_cases hhost : EmptyValue f ∧ fieldHandling f = some .host
  · rw [namedSettings_host hhost.1 hhost.2] at hset
    obtain ⟨s, hs, hname, hvalue⟩ := exists_of_lastSetting hset
    cases List.mem_singleton.mp hs
    exact ⟨hname.symm, hvalue.symm, before, f, after, rfl, hhost⟩
  · rw [namedSettings_own fun he hh => hhost ⟨he, hh⟩, hown.2.1] at hset
    cases hset

section
variable {o : Options} {before : List Bytes} {f : Bytes}

theorem optionsAfter_get_snoc (o : Options) (before : List Bytes) (f : Bytes) (x : OptionName) :
    (optionsAfter o (before ++ [f])).get x =
      (lastSetting x (fieldSettings f)).getD ((optionsAfter o before).get x) := by
  simp only [Options.get, optionsAfter, Settings.options_settings]
  rw [List.foldl_append, List.foldl_cons, List.foldl_nil, applyField_get]

theorem namedValue_snoc (o : Options) (before : List Bytes) (f : Bytes) (x : OptionName) :
    namedValue o (before ++ [f]) x =
      (lastSetting x (namedSettings f)).getD (namedValue o before x) := by
  rw [namedValue, lastSetting_split]
  cases lastSetting x (namedSettings f) <;> rfl

/-- A field without a value that spells what is there changes nothing. -/
theorem optionsAfter_named_snoc (hnul : (0 : UInt8) ∉ f)
    (hbefore : ∀ x, (optionsAfter o before).get x = namedValue o before x)
    (hspelled : EmptyValue f → fieldHandling f ≠ some .host →
      ∀ s ∈ hostSettings (fieldKey f), namedValue o before s.name = s.value) (x : OptionName) :
    (optionsAfter o (before ++ [f])).get x = namedValue o (before ++ [f]) x := by
  rw [optionsAfter_get_snoc, namedValue_snoc, hbefore]
  by_cases hempty : EmptyValue f ∧ fieldHandling f ≠ some .host
  · rw [fieldSettings_of_empty hempty.1, namedSettings_own fun _ => hempty.2,
      ownSettings_of_empty hempty.1]
    cases hlast : lastSetting x (hostSettings (fieldKey f)) with
    | none => rfl
    | some v =>
        obtain ⟨s, hs, hname, hvalue⟩ := exists_of_lastSetting hlast
        rw [Option.getD_some, ← hvalue, ← hspelled hempty.1 hempty.2 s hs, hname]
        rfl
  · rw [fieldSettings_named hnul fun he => Decidable.not_not.mp fun hh => hempty ⟨he, hh⟩]

end

/-! ## All fields -/

section
variable {o : Options} {text : CString}

theorem fields_nulFree {before after : List Bytes} {f : Bytes}
    (hsplit : fields text = before ++ f :: after) : (0 : UInt8) ∉ f := by
  have hf : f ∈ fields text := hsplit ▸ List.mem_append_right before List.mem_cons_self
  exact fun hnul => text.nulFree (subset_of_mem_words hf hnul)

theorem changesOnly_iff (hne : text.bytes ≠ []) (hle : text.strlen ≤ uintMax)
    {before after : List Bytes} {f : Bytes} (hsplit : fields text = before ++ f :: after)
    {named : OptionName → Prop} : ChangesOnly text o before.length named ↔
    ∀ x, ¬ named x → (optionsAfter o (before ++ [f])).get x = (optionsAfter o before).get x := by
  have hold := n2aParseArguments_eq o before.length hne hle
  have hnew := n2aParseArguments_eq o (before.length + 1) hne hle
  rw [hsplit, List.take_left] at hold
  rw [hsplit, List.take_length_add_append, List.take_succ_cons, List.take_zero] at hnew
  constructor
  · intro h
    exact h _ _ _ _ hold hnew
  · intro h b b' old new hold' hnew'
    rw [hold] at hold'
    rw [hnew] at hnew'
    cases hold'
    cases hnew'
    exact h

theorem HarmlessEmpties.optionsAfter_get (h : HarmlessEmpties o (fields text))
    {before after : List Bytes} (hsplit : fields text = before ++ after) (x : OptionName) :
    (optionsAfter o before).get x = namedValue o before x := by
  induction before using List.reverseRecOn generalizing after x with
  | nil => rfl
  | append_singleton before f ih =>
      have hsplit' : fields text = before ++ f :: after := by
        rw [hsplit, List.append_assoc, List.singleton_append]
      exact optionsAfter_named_snoc (fields_nulFree hsplit') (ih hsplit')
        (h.spelled before f after hsplit') x

theorem HarmlessEmpties.last (h : HarmlessEmpties o (fields text)) {x : OptionName}
    {v : OptionValue} (hlast : lastSetting x ((fields text).flatMap ownSettings) = some v) :
    namedValue o (fields text) x = v := by
  obtain ⟨before, f, after, hsplit, hset, hnone⟩ := exists_last_field ownSettings hlast
  have hempty : ¬ EmptyValue f := by
    intro hempty
    rw [ownSettings_of_empty hempty] at hset
    cases hset
  rw [namedValue, hsplit, lastSetting_split, namedSettings_own fun he => absurd he hempty, hset]
  cases hlater : lastSetting x (after.flatMap namedSettings) with
  | none => rfl
  | some v' =>
      -- only a later `host=`, which has to agree
      obtain ⟨rfl, rfl, between, f', after', rfl, hempty', hhandling⟩ :=
        namedSettings_of_own hnone hlater
      rw [lastSetting_split, Option.or_eq_none_iff, Option.or_eq_none_iff] at hnone
      have hagrees := h.host (before ++ f :: between) f' after' v (by simp [hsplit]) hempty'
        hhandling hnone.1 (by rw [lastSetting_split, hnone.2.2, hset]; rfl)
      exact hagrees.symm

theorem HarmlessEmpties.keeps (h : HarmlessEmpties o (fields text)) {before after : List Bytes}
    {f : Bytes} (hsplit : fields text = before ++ f :: after) {x : OptionName}
    (hx : ∀ s ∈ namedSettings f, s.name ≠ x) :
    (optionsAfter o (before ++ [f])).get x = (optionsAfter o before).get x := by
  have hsplit' : fields text = (before ++ [f]) ++ after := by simp [hsplit]
  rw [h.optionsAfter_get hsplit', h.optionsAfter_get hsplit, namedValue_snoc,
    lastSetting_eq_none_iff.mpr hx]
  rfl

theorem HarmlessEmpties.setByOwnFields (h : HarmlessEmpties o (fields text))
    (hne : text.bytes ≠ []) (hle : text.strlen ≤ uintMax) :
    SetByOwnFields text o (optionsAfter o (fields text)) := by
  have hall := h.optionsAfter_get (List.append_nil (fields text)).symm
  constructor
  · intro x hx
    rw [hall, namedValue] at hx
    cases hlast : lastSetting x ((fields text).flatMap namedSettings) with
    | none =>
        rw [hlast] at hx
        exact absurd rfl hx
    | some v =>
        obtain ⟨s, hs, rfl, -⟩ := exists_of_lastSetting hlast
        obtain ⟨f, hf, hsf⟩ := List.mem_flatMap.mp hs
        exact ⟨f, hf, namedSettings_name hsf⟩
  · intro x v hlast
    rw [hall]
    exact h.last hlast
  · intro before f after hsplit hempty
    rw [changesOnly_iff hne hle hsplit]
    intro x hx
    refine h.keeps hsplit fun s hs hname => ?_
    subst hname
    exact (namedSettings_name hs).elim hx fun hbare => hbare.2 hempty.1
  · intro before f after hsplit hmem hhandling
    rw [changesOnly_iff hne hle hsplit]
    intro x _
    apply h.keeps hsplit
    rw [namedSettings_own (fun _ => by simp [hhandling]), ownSettings_of_unknown hmem hhandling]
    exact List.forall_mem_nil _

/-- If no option is set by any other field, what a field without a value spells is there, since it
changes nothing. -/
theorem SetByOwnFields.spelled (hne : text.bytes ≠ []) (hle : text.strlen ≤ uintMax)
    {final : Options} (h : SetByOwnFields text o final) {before after : List Bytes} {f : Bytes}
    (hsplit : fields text = before ++ f :: after) (hempty : EmptyValue f)
    (hhandling : fieldHandling f ≠ some .host) {s : Setting} (hs : s ∈ hostSettings (fieldKey f)) :
    (optionsAfter o before).get s.name = s.value := by
  have hnot := not_names_of_hostSettings (fields_nulFree hsplit) hhandling hs
  have hsame := (changesOnly_iff hne hle hsplit).mp (h.empty before f after hsplit hempty) s.name hnot
  rw [← hsame, optionsAfter_get_snoc, fieldSettings_of_empty hempty, lastSetting_hostSettings hs]
  rfl

theorem SetByOwnFields.optionsAfter_get (hne : text.bytes ≠ []) (hle : text.strlen ≤ uintMax)
    {final : Options} (h : SetByOwnFields text o final) {before after : List Bytes}
    (hsplit : fields text = before ++ after) (x : OptionName) :
    (optionsAfter o before).get x = namedValue o before x := by
  induction before using List.reverseRecOn generalizing after x with
  | nil => rfl
  | append_singleton before f ih =>
      have hsplit' : fields text = before ++ f :: after := by
        rw [hsplit, List.append_assoc, List.singleton_append]
      apply optionsAfter_named_snoc (fields_nulFree hsplit') (ih hsplit')
      intro hempty hhandling s hs
      rw [← ih hsplit']
      exact h.spelled hne hle hsplit' hempty hhandling hs

theorem SetByOwnFields.harmlessEmpties (hne : text.bytes ≠ []) (hle : text.strlen ≤ uintMax)
    (h : SetByOwnFields text o (optionsAfter o (fields text))) :
    HarmlessEmpties o (fields text) := by
  constructor
  · intro before f after hsplit hempty hhandling s hs
    rw [← h.optionsAfter_get hne hle hsplit]
    exact h.spelled hne hle hsplit hempty hhandling hs
  · intro before f after v hsplit hempty hhandling hafter hbefore
    have hlast : lastSetting (.str .hostname) ((fields text).flatMap ownSettings) = some v := by
      rw [hsplit, lastSetting_split, hafter, ownSettings_of_empty hempty, hbefore]
      rfl
    -- behind the field nothing but `host=` sets the host name
    have hend : namedValue o (fields text) (.str .hostname) = .str (some (.lit "host")) := by
      rw [namedValue, hsplit, lastSetting_split, namedSettings_host hempty hhandling]
      cases hlater : lastSetting (.str .hostname) (after.flatMap namedSettings) with
      | none => rfl
      | some v' => exact (namedSettings_of_own hafter hlater).2.1
    rw [← h.last _ v hlast, h.optionsAfter_get hne hle (List.append_nil _).symm, hend]

end

/-- Whenever the parser returns, the options are set by their own fields alone, exactly if
no field without a value does harm. (A longer text than `xstrdup` copies whole is not
parsed to its end.) -/
theorem setByOwnFields_iff (text : CString) (o : Options) :
    (∀ n final, n2aParseArguments n (some text) o = .ok (true, final) →
      SetByOwnFields text o final) ↔
    (text.strlen ≤ uintMax → HarmlessEmpties o (fields text)) := by
  constructor
  · intro hset hle
    by_cases hne : text.bytes = []
    · have hnone : fields text = [] := by rw [fields, hne, words_nil]
      rw [hnone]
      constructor <;> simp
    · exact (hset _ _ (n2aParseArguments_returns o hne hle)).harmlessEmpties hne hle
  · intro hharmless n final hparse
    obtain ⟨hne, hle, rfl⟩ := n2aParseArguments_returned hparse
    exact (hharmless hle).setByOwnFields hne hle

/-- `password=` sets the host name. -/
theorem emptyPassword_sets_hostname : ¬ ∀ n final,
    n2aParseArguments n (some (.lit "password=")) Options.default = .ok (true, final) →
      SetByOwnFields (.lit "password=") Options.default final := by
  intro hset
  have hne : (CString.lit "password=").bytes ≠ [] := by decide +kernel
  have hle : (CString.lit "password=").strlen ≤ uintMax := by decide +kernel
  have hown := hset _ _ (n2aParseArguments_returns Options.default hne hle)
  have hchanged : (optionsAfter Options.default (fields (.lit "password="))).get (.str .hostname) ≠
      Options.default.get (.str .hostname) := by
    decide +kernel
  obtain ⟨f, hf, hnamed⟩ := hown.named _ hchanged
  have hfield : fields (.lit "password=") = [(CString.lit "password=").bytes] := by decide +kernel
  rw [hfield] at hf
  cases List.mem_singleton.mp hf
  rcases hnamed with ⟨-, h, hhandling, hname⟩ | ⟨-, hbare⟩
  · have hhost := handling_of_hostname hhandling hname
    rw [hhost] at hhandling
    exact absurd hhandling (by decide +kernel)
  · exact hbare (by decide +kernel)

end Neb2Amqp
