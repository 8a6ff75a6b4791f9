import Neb2Amqp.Events.Payload
import Neb2Amqp.Events.Pieces
import Neb2Amqp.Events.SplitText

/-!
# Whether a split message carries one text

The loops of a split check share one object, so that a loop finds in it what the
loops before it left there.
-/

namespace Neb2Amqp

open CLib

/-- The payload is the whole text of an object that has every pair of the base and
exactly one of the three text keys. -/
structure CarriesOne (printf : UInt64 → Option CString) (base : JsonObject) (m : Message) :
    Prop where
  whole : jsonDumps printf m.jdata = some m.payload
  kept : ∀ p ∈ base.pairs, p ∈ m.jdata.pairs
  one : ∃! field : TextField, field.name ∈ m.jdata.keys

/-- What a consumer finds under a text key, message by message. -/
def receivedChunks (field : TextField) (messages : List Message) : List CString :=
  messages.filterMap fun m => jsonObjectGet m.jdata field.name >>= jsonStringValue

/-- The loop for the text makes a round. -/
def Runs (c : ServiceCheckData) (left : Int32) (field : TextField) : Prop :=
  -left.toInt < (toInt (xstrlen (c.text field))).toInt

/-- The base can be written with this chunk, and has no other text of its own. -/
structure TakesChunk (printf : UInt64 → Option CString) (base : JsonObject) (field : TextField)
    (text : CString) : Prop where
  proper : utf8CheckString text = true
  others : ∀ p ∈ base.pairs, (dumpValue printf p.2).isSome ∧
    ∀ other : TextField, p.1 = other.name → p = (field.name, .string text)
  size : layerSize printf base (Texts.none.set field text) ≤ uintMax

/-! ## One message -/

section
variable {printf : UInt64 → Option CString} {base : JsonObject} {m : Message} {texts : Texts}
  {field : TextField} {text : CString}

theorem name_mem_overlay {pairs : List JsonPair} :
    field.name ∈ keysOf (overlay pairs (held texts)) ↔
      (texts field).isSome ∨ field.name ∈ keysOf pairs := by
  rw [← name_mem_keysOf_held]
  simp only [mem_keysOf, mem_overlay]
  constructor
  · rintro ⟨p, hp | ⟨hp, -⟩, hkey⟩
    · exact .inl ⟨p, hp, hkey⟩
    · exact .inr ⟨p, hp, hkey⟩
  · rintro (⟨p, hp, hkey⟩ | ⟨p, hp, hkey⟩)
    · exact ⟨p, .inl hp, hkey⟩
    · by_cases htop : ∃ q ∈ held texts, q.1 = p.1
      · obtain ⟨q, hq, hsame⟩ := htop
        exact ⟨q, .inl hq, hsame.trans hkey⟩
      · exact ⟨p, .inr ⟨hp, htop⟩, hkey⟩

theorem Shows.name_mem_keys (h : Shows printf base m texts) :
    field.name ∈ m.jdata.keys ↔ (texts field).isSome ∨ field.name ∈ keysOf base.pairs := by
  rw [← name_mem_overlay]
  exact (h.pairs.map Prod.fst).mem_iff

theorem Shows.not_carriesOne (h : Shows printf base m texts) {other : TextField}
    (hfield : (texts field).isSome) (hother : (texts other).isSome) (hne : other ≠ field) :
    ¬ CarriesOne printf base m := by
  intro hone
  exact hne (hone.one.unique (h.name_mem_keys.mpr (.inl hother)) (h.name_mem_keys.mpr (.inl hfield)))

theorem mem_held_set {p : JsonPair} :
    p ∈ held (Texts.none.set field text) ↔ p = (field.name, .string text) := by
  rw [mem_held]
  constructor
  · rintro ⟨other, text', htext', rfl⟩
    by_cases hother : other = field
    · subst hother
      rw [Texts.set_self] at htext'
      cases htext'
      rfl
    · rw [Texts.set_of_ne hother] at htext'
      cases htext'
  · rintro rfl
    exact ⟨field, text, Texts.set_self .., rfl⟩

theorem Shows.carriesOne_iff (h : Shows printf base m (Texts.none.set field text))
    (hbase : base.pairs ≠ []) :
    CarriesOne printf base m ↔ TakesChunk printf base field text := by
  have hmem : ∀ p, p ∈ m.jdata.pairs ↔
      p = (field.name, .string text) ∨ (p ∈ base.pairs ∧ p.1 ≠ field.name) := by
    intro p
    have hkey : p.1 ∈ keysOf (held (Texts.none.set field text)) ↔ p.1 = field.name := by
      simp only [mem_keysOf, mem_held_set, exists_eq_left, eq_comm]
    rw [h.pairs.mem_iff, mem_overlay, mem_held_set, hkey]
  have hown : (field.name, JsonValue.string text) ∈ m.jdata.pairs := (hmem _).mpr (.inl rfl)
  constructor
  · intro hone
    obtain ⟨hwritable, hsize⟩ := (h.payload_eq_iff hbase).mp hone.whole
    have hdump : ∀ p ∈ m.jdata.pairs, (dumpValue printf p.2).isSome :=
      fun p hp => hwritable p (h.pairs.mem_iff.mp hp)
    refine ⟨?_, fun p hp => ⟨hdump p (hone.kept p hp), fun other hother => ?_⟩, hsize⟩
    · rw [← dumpString_isSome]
      exact hdump _ hown
    · have hsame : other = field := by
        refine hone.one.unique ?_ (List.mem_map_of_mem hown)
        exact hother ▸ List.mem_map_of_mem (hone.kept p hp)
      subst hsame
      have hpair : (other.name, p.2) ∈ m.jdata.pairs := hother ▸ hone.kept p hp
      exact Prod.ext hother (value_unique m.jdata.nodup hpair hown)
  · intro htakes
    refine ⟨(h.payload_eq_iff hbase).mpr ⟨fun p hp => ?_, htakes.size⟩, fun p hp => ?_,
      field, List.mem_map_of_mem hown, fun other hother => ?_⟩
    · rcases (hmem p).mp (h.pairs.mem_iff.mpr hp) with rfl | ⟨hp, -⟩
      · exact (dumpString_isSome text).trans htakes.proper
      · exact (htakes.others p hp).1
    · by_cases hkey : p.1 = field.name
      · exact (hmem p).mpr (.inl ((htakes.others p hp).2 field hkey))
      · exact (hmem p).mpr (.inr ⟨hp, hkey⟩)
    · rcases h.name_mem_keys.mp hother with htext | hkey
      · by_contra hne
        rw [Texts.set_of_ne hne] at htext
        cases htext
      · obtain ⟨p, hp, hkey⟩ := mem_keysOf.mp hkey
        have hpair := (htakes.others p hp).2 other hkey
        rw [hpair] at hkey
        exact (name_injective hkey).symm

end

/-! ## All messages of a check -/

section
variable {printf : UInt64 → Option CString} {base : JsonObject} {c : ServiceCheckData}
  {left : Int32} {messages : List Message}

theorem lastChunk_isSome_iff (field : TextField) :
    (lastChunk c left field).isSome ↔ 0 < rounds c left field := by
  unfold lastChunk
  split
  · rename_i hzero
    simp [hzero]
  · rename_i hzero
    simp [Nat.pos_of_ne_zero hzero]

/-- A loop that no other loop went before starts from the base. -/
theorem layerAt_alone {field : TextField} (h : ∀ other, 0 < rounds c left other → other = field)
    (k : Nat) : layerAt c left field k = Texts.none.set field (chunk c left field k) := by
  have hbefore : layerBefore c left field = .none := by
    funext other
    unfold layerBefore Texts.none
    split
    · rename_i hplace
      have hnot : ¬ 0 < rounds c left other := by
        intro hpos
        rw [h other hpos] at hplace
        exact Nat.lt_irrefl _ hplace
      rw [lastChunk, if_pos (Nat.eq_zero_of_not_pos hnot)]
    · rfl
  rw [layerAt, hbefore]

/-- If two loops run, the later one sends both texts. -/
theorem two_loops (hplan : List.Forall₂ (Follows printf base) messages (plan c left))
    {first later : TextField} (hplace : first.place < later.place)
    (hfirst : 0 < rounds c left first) (hlater : 0 < rounds c left later) :
    ∃ m ∈ messages, ¬ CarriesOne printf base m := by
  have hne : first ≠ later := fun h => absurd hplace (h ▸ Nat.lt_irrefl _)
  have hkept : (layerAt c left later 0 first).isSome := by
    rw [layerAt, Texts.set_of_ne hne, layerBefore, if_pos hplace]
    exact (lastChunk_isSome_iff first).mpr hfirst
  have hown : (layerAt c left later 0 later).isSome := by
    rw [layerAt_self]
    rfl
  obtain ⟨m, hm, hfollows⟩ := exists_message hplan _ (mem_plan.mpr ⟨later, 0, hlater, rfl⟩)
  exact ⟨m, hm, hfollows.not_carriesOne hown hkept hne⟩

theorem receivedChunks_eq (hplan : List.Forall₂ (Follows printf base) messages (plan c left))
    (hall : ∀ m ∈ messages, CarriesOne printf base m) (field : TextField) :
    receivedChunks field messages = storedChunks field messages := by
  apply List.filterMap_congr
  intro m hm
  obtain ⟨layer, hlayer, hfollows⟩ := exists_layer hplan m hm
  rw [hfollows.part]
  by_cases hfield : layer.1 = field
  · rw [hfield, if_pos rfl]
  · have hown := hfollows.name_mem_keys.mpr (.inl (plan_own layer hlayer))
    have hnot : field.name ∉ m.jdata.keys :=
      fun hmem => hfield ((hall m hm).one.unique hown hmem)
    rw [jsonObjectGet_eq_none hnot, if_neg (fun h => hfield (Option.some.inj h))]
    rfl

theorem forall_carriesOne_iff (hleft : 2 ≤ left.toInt) (hbase : base.pairs ≠ [])
    (hplan : List.Forall₂ (Follows printf base) messages (plan c left)) :
    (∀ m ∈ messages, CarriesOne printf base m) ↔
      ∀ field, Runs c left field → (∀ other, Runs c left other → other = field) ∧
        ∀ k < rounds c left field, TakesChunk printf base field (chunk c left field k) := by
  have hruns : ∀ field, Runs c left field ↔ 0 < rounds c left field :=
    fun field => (rounds_pos_iff hleft).symm
  simp only [hruns]
  constructor
  · intro hall field hfield
    have halone : ∀ other, 0 < rounds c left other → other = field := by
      intro other hother
      by_contra hne
      have hplaces : other.place < field.place ∨ field.place < other.place := by
        cases other <;> cases field <;> first | exact absurd rfl hne | decide
      rcases hplaces with hplace | hplace
      · obtain ⟨m, hm, hnot⟩ := two_loops hplan hplace hother hfield
        exact hnot (hall m hm)
      · obtain ⟨m, hm, hnot⟩ := two_loops hplan hplace hfield hother
        exact hnot (hall m hm)
    refine ⟨halone, fun k hk => ?_⟩
    obtain ⟨m, hm, hfollows⟩ := exists_message hplan _ (mem_plan.mpr ⟨field, k, hk, rfl⟩)
    have hshows := hfollows.toShows
    simp only [layerAt_alone halone] at hshows
    exact (hshows.carriesOne_iff hbase).mp (hall m hm)
  · intro hcond m hm
    obtain ⟨layer, hlayer, hfollows⟩ := exists_layer hplan m hm
    obtain ⟨field, k, hk, rfl⟩ := mem_plan.mp hlayer
    obtain ⟨halone, htakes⟩ := hcond field (Nat.zero_lt_of_lt hk)
    have hshows := hfollows.toShows
    simp only [layerAt_alone halone] at hshows
    exact (hshows.carriesOne_iff hbase).mpr (htakes k hk)

end

end Neb2Amqp
