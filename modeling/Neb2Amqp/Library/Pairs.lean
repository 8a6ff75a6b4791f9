import Mathlib.Algebra.BigOperators.Group.List.Basic
import Mathlib.Algebra.Ring.Nat
import Mathlib.Data.List.Nodup
import Mathlib.Data.List.Perm.Basic

/-!
# Lists of pairs with distinct keys

What replacing, removing and overlaying does to such a list, up to order.
-/

namespace CLib

variable {κ β : Type}

def keysOf (pairs : List (κ × β)) : List κ := pairs.map Prod.fst

theorem mem_keysOf {key : κ} {pairs : List (κ × β)} :
    key ∈ keysOf pairs ↔ ∃ p ∈ pairs, p.1 = key :=
  List.mem_map

theorem nodup_of_keysOf {pairs : List (κ × β)} (h : (keysOf pairs).Nodup) : pairs.Nodup :=
  h.of_map Prod.fst

theorem value_unique {pairs : List (κ × β)} (h : (keysOf pairs).Nodup) {key : κ} {u v : β}
    (hu : (key, u) ∈ pairs) (hv : (key, v) ∈ pairs) : u = v :=
  congrArg Prod.snd (List.inj_on_of_nodup_map h hu hv rfl)

section
variable [DecidableEq κ]

/-- The pairs under other keys. -/
def without (key : κ) (pairs : List (κ × β)) : List (κ × β) := pairs.filter fun p => p.1 ≠ key

def replaceValue (key : κ) (value : β) (pairs : List (κ × β)) : List (κ × β) :=
  pairs.map fun p => if p.1 = key then (key, value) else p

theorem mem_without {key : κ} {pairs : List (κ × β)} {p : κ × β} :
    p ∈ without key pairs ↔ p ∈ pairs ∧ p.1 ≠ key := by
  simp [without]

theorem without_without (key : κ) (pairs : List (κ × β)) :
    without key (without key pairs) = without key pairs := by
  simp [without]

theorem keysOf_without_nodup {key : κ} {pairs : List (κ × β)} (h : (keysOf pairs).Nodup) :
    (keysOf (without key pairs)).Nodup :=
  h.sublist (List.filter_sublist.map Prod.fst)

theorem without_of_not_mem {key : κ} {pairs : List (κ × β)} (h : key ∉ keysOf pairs) :
    without key pairs = pairs := by
  apply List.filter_eq_self.mpr
  intro p hp
  have hne : p.1 ≠ key := fun hkey => h (hkey ▸ List.mem_map_of_mem hp)
  simpa using hne

theorem replaceValue_of_not_mem {key : κ} (value : β) {pairs : List (κ × β)}
    (h : key ∉ keysOf pairs) : replaceValue key value pairs = pairs := by
  have hid : ∀ p ∈ pairs, (if p.1 = key then (key, value) else p) = p := by
    intro p hp
    have hne : p.1 ≠ key := fun hkey => h (hkey ▸ List.mem_map_of_mem hp)
    exact if_neg hne
  exact (List.map_congr_left hid).trans (List.map_id pairs)

theorem keysOf_replaceValue (key : κ) (value : β) (pairs : List (κ × β)) :
    keysOf (replaceValue key value pairs) = keysOf pairs := by
  unfold keysOf replaceValue
  rw [List.map_map]
  apply List.map_congr_left
  intro p _
  simp only [Function.comp_apply]
  split
  · rename_i hkey
    exact hkey.symm
  · rfl

/-- Replacing a value is as good as entering the pair anew. -/
theorem replaceValue_perm {key : κ} (value : β) {pairs : List (κ × β)}
    (hnodup : (keysOf pairs).Nodup) (hmem : key ∈ keysOf pairs) :
    (replaceValue key value pairs).Perm ((key, value) :: without key pairs) := by
  induction pairs with
  | nil => cases hmem
  | cons p pairs ih =>
      obtain ⟨hp, hrest⟩ := List.nodup_cons.mp hnodup
      by_cases hkey : p.1 = key
      · subst hkey
        have hsame := replaceValue_of_not_mem value hp
        have hkept := without_of_not_mem hp
        have hleft : replaceValue p.1 value (p :: pairs) =
            (p.1, value) :: replaceValue p.1 value pairs := by
          simp [replaceValue]
        have hright : without p.1 (p :: pairs) = without p.1 pairs := by
          simp [without]
        rw [hleft, hright, hsame, hkept]
      · have hmem' : key ∈ keysOf pairs := by
          rcases List.mem_cons.mp hmem with h | h
          · exact absurd h.symm hkey
          · exact h
        have hstep := (ih hrest hmem').cons p
        have hleft : replaceValue key value (p :: pairs) = p :: replaceValue key value pairs := by
          simp [replaceValue, hkey]
        have hright : without key (p :: pairs) = p :: without key pairs := by
          simp [without, hkey]
        rw [hleft, hright]
        exact hstep.trans (.swap _ _ _)

/-! ## Overlays -/

/-- The pairs of `base` whose keys `top` takes over. -/
def covered (base top : List (κ × β)) : List (κ × β) := base.filter fun p => p.1 ∈ keysOf top

/-- All pairs of `top`, and those of `base` under other keys. -/
def overlay (base top : List (κ × β)) : List (κ × β) :=
  top ++ base.filter fun p => p.1 ∉ keysOf top

theorem mem_overlay {base top : List (κ × β)} {p : κ × β} :
    p ∈ overlay base top ↔ p ∈ top ∨ (p ∈ base ∧ p.1 ∉ keysOf top) := by
  simp [overlay]

theorem overlay_nil (base : List (κ × β)) : overlay base [] = base := by
  simp [overlay, keysOf]

theorem overlay_ne_nil {base : List (κ × β)} (hbase : base ≠ []) (top : List (κ × β)) :
    overlay base top ≠ [] := by
  intro hnil
  obtain ⟨htop, -⟩ := List.append_eq_nil_iff.mp hnil
  subst htop
  exact hbase ((overlay_nil base).symm.trans hnil)

theorem keysOf_overlay_nodup {base top : List (κ × β)} (hbase : (keysOf base).Nodup)
    (htop : (keysOf top).Nodup) : (keysOf (overlay base top)).Nodup := by
  have hkept : (keysOf (base.filter fun p => p.1 ∉ keysOf top)).Nodup :=
    hbase.sublist (List.filter_sublist.map Prod.fst)
  have happend : keysOf (overlay base top) =
      keysOf top ++ keysOf (base.filter fun p => p.1 ∉ keysOf top) :=
    List.map_append
  rw [happend]
  apply htop.append hkept
  intro key hkey hkey'
  obtain ⟨p, hp, rfl⟩ := mem_keysOf.mp hkey'
  have hnot := (List.mem_filter.mp hp).2
  exact of_decide_eq_true hnot hkey

theorem overlay_enter_perm {base top top' : List (κ × β)} {key : κ} {value : β}
    (hbase : (keysOf base).Nodup) (htop : (keysOf top).Nodup) (htop' : (keysOf top').Nodup)
    (hmem : ∀ p, p ∈ top' ↔ p = (key, value) ∨ (p ∈ top ∧ p.1 ≠ key)) :
    ((key, value) :: without key (overlay base top)).Perm (overlay base top') := by
  have hkeys : ∀ k, k ∈ keysOf top' ↔ k = key ∨ k ∈ keysOf top := by
    intro k
    simp only [mem_keysOf, hmem]
    constructor
    · rintro ⟨p, rfl | ⟨hp, -⟩, rfl⟩
      · exact .inl rfl
      · exact .inr ⟨p, hp, rfl⟩
    · rintro (rfl | ⟨p, hp, rfl⟩)
      · exact ⟨(k, value), .inl rfl, rfl⟩
      · by_cases hk : p.1 = key
        · exact ⟨(key, value), .inl rfl, hk.symm⟩
        · exact ⟨p, .inr ⟨hp, hk⟩, rfl⟩
  have hnodup : (keysOf (without key (overlay base top))).Nodup :=
    keysOf_without_nodup (keysOf_overlay_nodup hbase htop)
  have hnew : (key, value) ∉ without key (overlay base top) :=
    fun h => (mem_without.mp h).2 rfl
  refine (List.perm_ext_iff_of_nodup (List.nodup_cons.mpr ⟨hnew, nodup_of_keysOf hnodup⟩)
    (nodup_of_keysOf (keysOf_overlay_nodup hbase htop'))).mpr (fun p => ?_)
  rw [List.mem_cons, mem_without, mem_overlay, mem_overlay, hmem, hkeys]
  have hkey : p = (key, value) → p.1 = key := fun h => congrArg Prod.fst h
  tauto

theorem sum_overlay (base top : List (κ × β)) (measure : κ × β → Nat) :
    ((overlay base top).map measure).sum + ((covered base top).map measure).sum =
      (top.map measure).sum + (base.map measure).sum := by
  have hsplit : ((base.filter fun p => p.1 ∉ keysOf top).map measure).sum +
      ((covered base top).map measure).sum = (base.map measure).sum := by
    induction base with
    | nil => rfl
    | cons p base ih =>
        unfold covered at ih ⊢
        by_cases hp : p.1 ∈ keysOf top
        · simp only [List.filter_cons, hp, not_true_eq_false, decide_false, decide_true,
            Bool.false_eq_true, if_false, if_true, List.map_cons, List.sum_cons]
          omega
        · simp only [List.filter_cons, hp, not_false_eq_true, decide_false, decide_true,
            Bool.false_eq_true, if_false, if_true, List.map_cons, List.sum_cons]
          omega
  rw [overlay, List.map_append, List.sum_append]
  omega

/-! ## Pairs entered one after the other -/

/-- The pairs that no later pair with their key takes the place of. -/
def lasts : List (κ × β) → List (κ × β)
  | [] => []
  | p :: pairs => if p.1 ∈ keysOf pairs then lasts pairs else p :: lasts pairs

theorem lasts_subset : ∀ pairs : List (κ × β), lasts pairs ⊆ pairs
  | [] => List.Subset.refl []
  | p :: pairs => by
      rw [lasts]
      split
      · exact List.subset_cons_of_subset p (lasts_subset pairs)
      · exact List.cons_subset_cons p (lasts_subset pairs)

theorem mem_keysOf_lasts {key : κ} {pairs : List (κ × β)} :
    key ∈ keysOf (lasts pairs) ↔ key ∈ keysOf pairs := by
  induction pairs with
  | nil => rfl
  | cons p pairs ih =>
      have hcons : ∀ rest : List (κ × β), key ∈ keysOf (p :: rest) ↔ key = p.1 ∨ key ∈ keysOf rest :=
        fun rest => List.mem_cons
      rw [lasts, hcons]
      split
      · rename_i hlater
        rw [ih]
        constructor
        · exact .inr
        · rintro (rfl | hkey)
          · exact hlater
          · exact hkey
      · rw [hcons, ih]

theorem keysOf_lasts_nodup : ∀ pairs : List (κ × β), (keysOf (lasts pairs)).Nodup
  | [] => List.nodup_nil
  | p :: pairs => by
      rw [lasts]
      split
      · exact keysOf_lasts_nodup pairs
      · rename_i hfirst
        refine List.nodup_cons.mpr ⟨?_, keysOf_lasts_nodup pairs⟩
        exact fun hkey => hfirst (mem_keysOf_lasts.mp hkey)

theorem lasts_concat (pairs : List (κ × β)) (key : κ) (value : β) :
    lasts (pairs ++ [(key, value)]) = without key (lasts pairs) ++ [(key, value)] := by
  induction pairs with
  | nil => rfl
  | cons p pairs ih =>
      have hkeys : keysOf (pairs ++ [(key, value)]) = keysOf pairs ++ [key] := List.map_append
      have hmem : p.1 ∈ keysOf (pairs ++ [(key, value)]) ↔ p.1 ∈ keysOf pairs ∨ p.1 = key := by
        rw [hkeys, List.mem_append, List.mem_singleton]
      rw [List.cons_append, lasts, lasts, ih]
      by_cases hlater : p.1 ∈ keysOf pairs
      · rw [if_pos (hmem.mpr (.inl hlater)), if_pos hlater]
      · by_cases hkey : p.1 = key
        · rw [if_pos (hmem.mpr (.inr hkey)), if_neg hlater]
          simp [without, hkey]
        · rw [if_neg fun h => (hmem.mp h).elim hlater hkey, if_neg hlater]
          simp [without, hkey]

/-- A pair whose key no other has may stand anywhere. -/
theorem lasts_middle_perm {before after : List (κ × β)} {p : κ × β} (hbefore : p.1 ∉ keysOf before)
    (hafter : p.1 ∉ keysOf after) :
    (lasts (before ++ p :: after)).Perm (p :: lasts (before ++ after)) := by
  induction before with
  | nil =>
      have hlasts : lasts (p :: after) = p :: lasts after := if_neg hafter
      exact .of_eq hlasts
  | cons q before ih =>
      have hne : p.1 ≠ q.1 := fun h => hbefore (h ▸ List.mem_cons_self)
      have hrest := ih fun h => hbefore (List.mem_cons_of_mem q.1 h)
      have hkeys : q.1 ∈ keysOf (before ++ p :: after) ↔ q.1 ∈ keysOf (before ++ after) := by
        simp [keysOf, hne.symm]
      rw [List.cons_append, List.cons_append, lasts, lasts]
      by_cases hlater : q.1 ∈ keysOf (before ++ after)
      · rw [if_pos (hkeys.mpr hlater), if_pos hlater]
        exact hrest
      · rw [if_neg fun h => hlater (hkeys.mp h), if_neg hlater]
        exact (hrest.cons q).trans (.swap p q _)

theorem overlay_lasts_concat {base : List (κ × β)} (hbase : (keysOf base).Nodup)
    (pairs : List (κ × β)) (key : κ) (value : β) :
    ((key, value) :: without key (overlay base (lasts pairs))).Perm
      (overlay base (lasts (pairs ++ [(key, value)]))) := by
  apply overlay_enter_perm hbase (keysOf_lasts_nodup pairs) (keysOf_lasts_nodup _)
  intro p
  rw [lasts_concat, List.mem_append, List.mem_singleton, mem_without]
  exact or_comm

end

end CLib
