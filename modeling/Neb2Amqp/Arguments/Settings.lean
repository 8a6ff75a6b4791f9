import Neb2Amqp.Arguments.Fields

/-!
# Which options a field sets

A field makes settings of the options its key names, and a field without a value those
of a host. An option has the value of the last setting made of it.
-/

namespace Neb2Amqp

open CLib

inductive OptionName
  | int (x : IntOption)
  | str (x : StrOption)
  deriving DecidableEq

inductive OptionValue
  | int (v : Int32)
  | str (s : Option CString)
  deriving DecidableEq

def Settings.get (g : Values) : OptionName → OptionValue
  | .int x => .int (g.int x)
  | .str x => .str (g.str x)

def Options.get (o : Options) (x : OptionName) : OptionValue := o.settings.get x

namespace Setting

def name : Setting → OptionName
  | .int x _ => .int x
  | .str x _ => .str x

def value : Setting → OptionValue
  | .int _ v => .int v
  | .str _ s => .str s

theorem apply_get (g : Values) (s : Setting) (x : OptionName) :
    (s.apply g).get x = if s.name = x then s.value else g.get x := by
  cases s with
  | int y v =>
      cases x with
      | int x =>
          by_cases hx : x = y
          · simp [apply, Settings.get, Settings.setInt, name, value, hx]
          · simp [apply, Settings.get, Settings.setInt, name, hx, Ne.symm hx]
      | str x => simp [apply, Settings.get, Settings.setInt, name]
  | str y v =>
      cases x with
      | int x => simp [apply, Settings.get, Settings.setStr, name]
      | str x =>
          by_cases hx : x = y
          · simp [apply, Settings.get, Settings.setStr, name, value, hx]
          · simp [apply, Settings.get, Settings.setStr, name, hx, Ne.symm hx]

end Setting

/-- The value of the last setting of `x`. -/
def lastSetting (x : OptionName) : List Setting → Option OptionValue
  | [] => none
  | s :: l => (lastSetting x l).or (if s.name = x then some s.value else none)

theorem foldl_apply_get (x : OptionName) (l : List Setting) (g : Values) :
    (l.foldl Setting.apply g).get x = (lastSetting x l).getD (g.get x) := by
  induction l generalizing g with
  | nil => rfl
  | cons s l ih =>
      rw [List.foldl_cons, ih, Setting.apply_get, lastSetting]
      cases lastSetting x l with
      | some v => rfl
      | none =>
          by_cases hs : s.name = x
          · simp [hs]
          · simp [hs]

theorem lastSetting_append (x : OptionName) (l l' : List Setting) :
    lastSetting x (l ++ l') = (lastSetting x l').or (lastSetting x l) := by
  induction l with
  | nil => simp [lastSetting]
  | cons s l ih => rw [List.cons_append, lastSetting, ih, lastSetting, Option.or_assoc]

theorem exists_of_lastSetting {x : OptionName} {l : List Setting} {v : OptionValue}
    (h : lastSetting x l = some v) : ∃ s ∈ l, s.name = x ∧ s.value = v := by
  induction l with
  | nil => cases h
  | cons s l ih =>
      rcases Option.or_eq_some_iff.mp h with hlater | ⟨-, hs⟩
      · obtain ⟨s', hs', hv⟩ := ih hlater
        exact ⟨s', List.mem_cons_of_mem s hs', hv⟩
      · by_cases hname : s.name = x
        · rw [if_pos hname] at hs
          exact ⟨s, List.mem_cons_self, hname, Option.some.inj hs⟩
        · rw [if_neg hname] at hs
          cases hs

theorem lastSetting_eq_none_iff {x : OptionName} {l : List Setting} :
    lastSetting x l = none ↔ ∀ s ∈ l, s.name ≠ x := by
  induction l with
  | nil => simp [lastSetting]
  | cons s l ih => simp [lastSetting, ih, and_comm]

theorem applyField_get (g : Values) (f : Bytes) (x : OptionName) :
    (applyField g f).get x = (lastSetting x (fieldSettings f)).getD (g.get x) :=
  foldl_apply_get x (fieldSettings f) g

/-! ## Names -/

/-- The options that a key names. -/
def Handling.names : Handling → List OptionName
  | .number x _ => [.int x]
  | .text x => [.str x]
  | .purge => [.int .purge]
  | .rate => [.int .rate]
  | .flush => [.int .flush]
  | .host => [.str .hostname, .int .port]

theorem hostSettings_name {w : Bytes} {s : Setting} (hs : s ∈ hostSettings w) :
    s.name ∈ Handling.host.names := by
  unfold hostSettings at hs
  split at hs
  · cases List.mem_singleton.mp hs
    exact List.mem_cons_self
  · split at hs
    · cases List.mem_singleton.mp hs
      exact List.mem_cons_self
    · cases hs with
      | head => exact List.mem_cons_self
      | tail _ hs =>
          cases List.mem_singleton.mp hs
          exact List.mem_cons_of_mem _ List.mem_cons_self

theorem Handling.settings_name {h : Handling} {w : Bytes} {s : Setting} (hs : s ∈ h.settings w) :
    s.name ∈ h.names := by
  cases h with
  | number x base =>
      cases List.mem_singleton.mp hs
      exact List.mem_cons_self
  | text x =>
      cases List.mem_singleton.mp hs
      exact List.mem_cons_self
  | purge =>
      cases List.mem_singleton.mp hs
      exact List.mem_cons_self
  | rate =>
      simp only [settings] at hs
      split at hs
      · cases List.mem_singleton.mp hs
        exact List.mem_cons_self
      · cases hs
  | flush =>
      simp only [settings] at hs
      split at hs
      · cases List.mem_singleton.mp hs
        exact List.mem_cons_self
      · cases hs
  | host => exact hostSettings_name hs

theorem fieldHandling_mem {f : Bytes} {h : Handling} (hf : fieldHandling f = some h) :
    (CString.ofBytes (fieldKey f), h) ∈ handlings := by
  obtain ⟨l, l', hsplit, -⟩ := List.lookup_eq_some_iff.mp hf
  rw [hsplit]
  exact List.mem_append_right l List.mem_cons_self

theorem handling_of_hostname {f : Bytes} {h : Handling} (hf : fieldHandling f = some h)
    (hname : .str .hostname ∈ h.names) : h = .host := by
  have hall : ∀ p ∈ handlings, .str .hostname ∈ p.2.names → p.2 = .host := by decide +kernel
  exact hall _ (fieldHandling_mem hf) hname

end Neb2Amqp
