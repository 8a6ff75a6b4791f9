import Neb2Amqp.Events.Keys
import Neb2Amqp.Library.Separator

/-!
# What a key designates

The keys of checks put names between dots, and the names may hold dots themselves.
-/

namespace Neb2Amqp

open CLib

/-- What is monitored: a host by its name, a service by those of its host and its own. -/
inductive Monitored
  | host (hostName : CString)
  | service (hostName serviceDescription : CString)

/-- An event of one of the two functions that send checks. -/
inductive CheckEvent
  | host (c : HostCheckData)
  | service (c : ServiceCheckData)

namespace CheckEvent

/-- Both names of a service are given, and that of a host. -/
def object : CheckEvent → Option Monitored
  | .host c => c.hostName.map .host
  | .service c => c.hostName.bind fun hostName => c.serviceDescription.map (.service hostName)

def parts (o : Options) : CheckEvent → List (Option CString)
  | .host c => hostCheckParts o c.hostName
  | .service c => serviceCheckParts o c.hostName c.serviceDescription

/-- The key before it is cut. -/
def joinedKey (o : Options) (e : CheckEvent) : Option CString :=
  n2aStrJoin (fun _ => true) (.lit ".") (e.parts o)

/-- No length passes `UINT_MAX`, where `xstrlen` stops counting. -/
def Whole (o : Options) (e : CheckEvent) : Prop := keyLength (fun _ => true) (e.parts o) ≤ uintMax

end CheckEvent

namespace Monitored

/-- A check of it. -/
def check : Monitored → CheckEvent
  | .host hostName => .host { pingCheck with hostName := some hostName }
  | .service hostName serviceDescription =>
      .service { loadCheck with
        hostName := some hostName, serviceDescription := some serviceDescription }

theorem check_object (x : Monitored) : x.check.object = some x := by
  cases x <;> rfl

/-- The last parts of its keys. -/
def pieces : Monitored → List CString
  | .host hostName => [.lit "component", hostName]
  | .service hostName serviceDescription => [.lit "resource", hostName, serviceDescription]

/-- These with dots between them. -/
def suffix : Monitored → Bytes
  | .host hostName => (CString.lit "component").bytes ++ 46 :: hostName.bytes
  | .service hostName serviceDescription =>
      (CString.lit "resource").bytes ++ 46 :: (hostName.bytes ++ 46 :: serviceDescription.bytes)

/-- None of the names of a service holds a dot. A host may have any name. -/
def Undotted : Monitored → Prop
  | .host _ => True
  | .service hostName serviceDescription =>
      (46 : UInt8) ∉ hostName.bytes ∧ (46 : UInt8) ∉ serviceDescription.bytes

end Monitored

section
variable {o : Options} {connector name : CString} (hconnector : o.connector = some connector)
  (hname : o.eventsourceName = some name) {e : CheckEvent} {x : Monitored}
  (hx : e.object = some x)

include hconnector hname hx

theorem CheckEvent.parts_eq :
    e.parts o = (connector :: name :: .lit "check" :: x.pieces).map some := by
  cases e with
  | host c =>
      obtain ⟨hostName, hhost, rfl⟩ := Option.map_eq_some_iff.mp hx
      simp [parts, hostCheckParts, hconnector, hname, hhost, Monitored.pieces]
  | service c =>
      obtain ⟨hostName, hhost, hservice⟩ := Option.bind_eq_some_iff.mp hx
      obtain ⟨serviceDescription, hdescription, rfl⟩ := Option.map_eq_some_iff.mp hservice
      simp [parts, serviceCheckParts, hconnector, hname, hhost, hdescription, Monitored.pieces]

variable (hne : connector.bytes ≠ [])
include hne

theorem CheckEvent.keyLength_eq :
    keyLength (fun _ => true) (e.parts o) =
      connector.strlen + name.strlen + 8 + x.suffix.length := by
  have hpos : 0 < connector.strlen := List.length_pos_of_ne_nil hne
  have hcheck : (CString.lit "check").strlen = 5 := by decide +kernel
  have hone : keyLength (fun _ => true) (e.parts o) = joinedLength (fun _ => true) 1
      ((name :: .lit "check" :: x.pieces).map some) connector.strlen 1 := by
    rw [parts_eq hconnector hname hx, keyLength, List.map_cons, joinedLength]
    simp
  rw [hone, joinedLength_of_pos 1 _ 1 hpos, List.map_cons, List.map_cons, List.sum_cons,
    List.sum_cons, hcheck]
  cases x with
  | host hostName =>
      simp only [Monitored.pieces, Monitored.suffix, List.map_cons, List.map_nil, List.sum_cons,
        List.sum_nil, List.length_append, List.length_cons, CString.strlen]
      omega
  | service hostName serviceDescription =>
      simp only [Monitored.pieces, Monitored.suffix, List.map_cons, List.map_nil, List.sum_cons,
        List.sum_nil, List.length_append, List.length_cons, CString.strlen]
      omega

/-- A key that is not cut is what all keys of checks start with, and the suffix. -/
theorem CheckEvent.joinedKey_eq (hwhole : e.Whole o) : ∃ key, e.joinedKey o = some key ∧
    key.bytes = connector.bytes ++ 46 :: name.bytes ++ 46 :: (CString.lit "check").bytes ++
      46 :: x.suffix := by
  have hpos : 0 < connector.strlen := List.length_pos_of_ne_nil hne
  have hparts := parts_eq hconnector hname hx
  rw [Whole, hparts] at hwhole
  rw [joinedKey, hparts]
  refine ⟨_, n2aStrJoin_eq hpos hwhole, ?_⟩
  have happend : ∀ s t : CString, (s ++ t).bytes = s.bytes ++ t.bytes := fun _ _ => rfl
  have hdot : (CString.lit ".").bytes = [46] := by decide +kernel
  cases x with
  | host hostName =>
      simp [Monitored.pieces, Monitored.suffix, happend, hdot]
  | service hostName serviceDescription =>
      simp [Monitored.pieces, Monitored.suffix, happend, hdot]

end

/-! ## Main result -/

theorem Monitored.suffix_host_ne (h hostName serviceDescription : CString) :
    (host h).suffix ≠ (service hostName serviceDescription).suffix := by
  have hcomponent : (CString.lit "component").bytes = 99 :: (CString.lit "omponent").bytes := by
    decide +kernel
  have hresource : (CString.lit "resource").bytes = 114 :: (CString.lit "esource").bytes := by
    decide +kernel
  intro heq
  rw [suffix, suffix, hcomponent, hresource] at heq
  exact absurd (List.cons.inj heq).1 (by decide)

theorem Monitored.suffix_unique_iff (x : Monitored) :
    (∀ y : Monitored, y.suffix = x.suffix → y = x) ↔ x.Undotted := by
  cases x with
  | host hostName =>
      refine iff_of_true (fun y hsuffix => ?_) trivial
      cases y with
      | host hostName' =>
          have hbytes := List.cons.inj (List.append_cancel_left hsuffix)
          rw [CString.ext hbytes.2]
      | service hostName' serviceDescription =>
          exact absurd hsuffix.symm (suffix_host_ne _ _ _)
  | service hostName serviceDescription =>
      rw [Undotted, ← split_unique_iff]
      constructor
      · intro hunique left right hsplit
        have hleft : (0 : UInt8) ∉ left ∧ (0 : UInt8) ∉ right := by
          have hnul : (0 : UInt8) ∉ hostName.bytes ++ 46 :: serviceDescription.bytes := by
            simp [hostName.nulFree, serviceDescription.nulFree]
          rw [← hsplit] at hnul
          simpa using hnul
        have hsame := hunique (.service ⟨left, hleft.1⟩ ⟨right, hleft.2⟩)
          (congrArg (fun names => (CString.lit "resource").bytes ++ 46 :: names) hsplit)
        cases hsame
        exact ⟨rfl, rfl⟩
      · intro hunique y hsuffix
        cases y with
        | host hostName' => exact absurd hsuffix (suffix_host_ne _ _ _)
        | service hostName' serviceDescription' =>
            have hnames := (List.cons.inj (List.append_cancel_left hsuffix)).2
            obtain ⟨hhost, hdescription⟩ := hunique _ _ hnames
            rw [CString.ext hhost, CString.ext hdescription]

/-- A check key designates one object exactly if this is a host, or a service without a
dot in its name and that of its host. -/
theorem checkKey_designates_iff {o : Options} (connector name : CString)
    (hconnector : o.connector = some connector) (hne : connector.bytes ≠ [])
    (hname : o.eventsourceName = some name) {e : CheckEvent} {x : Monitored}
    (hx : e.object = some x) (hwhole : e.Whole o) :
    (∀ (e' : CheckEvent) (y : Monitored), e'.object = some y → e'.Whole o →
      e'.joinedKey o = e.joinedKey o → y = x) ↔ x.Undotted := by
  obtain ⟨key, hkey, hbytes⟩ := CheckEvent.joinedKey_eq hconnector hname hx hne hwhole
  rw [← Monitored.suffix_unique_iff]
  constructor
  · intro hdesignates y hsuffix
    have hwhole' : y.check.Whole o := by
      rw [CheckEvent.Whole, CheckEvent.keyLength_eq hconnector hname hx hne] at hwhole
      rw [CheckEvent.Whole, CheckEvent.keyLength_eq hconnector hname y.check_object hne, hsuffix]
      exact hwhole
    obtain ⟨key', hkey', hbytes'⟩ :=
      CheckEvent.joinedKey_eq hconnector hname y.check_object hne hwhole'
    apply hdesignates y.check y y.check_object hwhole'
    rw [hkey, hkey']
    rw [hsuffix, ← hbytes] at hbytes'
    exact congrArg some (CString.ext hbytes')
  · intro hunique e' y hy hwhole' hsame
    obtain ⟨key', hkey', hbytes'⟩ := CheckEvent.joinedKey_eq hconnector hname hy hne hwhole'
    rw [hkey, hkey'] at hsame
    cases hsame
    rw [hbytes] at hbytes'
    apply hunique
    exact (List.cons.inj (List.append_cancel_left hbytes')).2.symm

theorem checkKey_designates_iff_load :
    (∀ (e' : CheckEvent) (y : Monitored), e'.object = some y → e'.Whole Options.default →
      e'.joinedKey Options.default = (CheckEvent.service loadCheck).joinedKey Options.default →
        y = .service (.lit "srv1") (.lit "load")) ↔
      (Monitored.service (.lit "srv1") (.lit "load")).Undotted :=
  checkKey_designates_iff (.lit "nagios") (.lit "Central") rfl
    (by decide +kernel) rfl (e := .service loadCheck) rfl
    (show keyLength (fun _ => true) _ ≤ uintMax by decide +kernel)

/-- The service `eu.load` of `web` and the service `load` of `web.eu` share a key. -/
theorem dotted_services_share_key :
    ¬ ∀ (e e' : CheckEvent) (x y : Monitored), e.object = some x → e'.object = some y →
      e.Whole Options.default → e'.Whole Options.default →
        e'.joinedKey Options.default = e.joinedKey Options.default → y = x := by
  intro hdistinct
  have hsame := hdistinct (.service { loadCheck with
      hostName := some (.lit "web"), serviceDescription := some (.lit "eu.load") })
    (.service { loadCheck with
      hostName := some (.lit "web.eu"), serviceDescription := some (.lit "load") }) _ _ rfl rfl
    (show keyLength (fun _ => true) _ ≤ uintMax by decide +kernel)
    (show keyLength (fun _ => true) _ ≤ uintMax by decide +kernel)
    (by decide +kernel)
  have hnames := Monitored.service.inj hsame
  exact absurd hnames.1 (by decide +kernel)

end Neb2Amqp
