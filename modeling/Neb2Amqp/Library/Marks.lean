import Mathlib.Data.List.Basic

/-!
# Marked entries of a log

A log that only grows at its end, some entries of which are marked. `Spaced` says
something of each two consecutive marks; it is carried along as the log grows from
what is known of the last mark.
-/

namespace CLib

variable {α : Type} {mark : α → Bool}

theorem split_of_unmarked {log more before after : List α} {m : α}
    (hsplit : log ++ more = before ++ m :: after) (hm : mark m = true)
    (hmore : ∀ a ∈ more, mark a = false) :
    ∃ after', after = after' ++ more ∧ log = before ++ m :: after' := by
  have hnot : m ∉ more := fun hmem => absurd (hm.symm.trans (hmore m hmem)) Bool.noConfusion
  rcases List.append_eq_append_iff.mp hsplit with ⟨tail, -, htail⟩ | ⟨tail, hlog, htail⟩
  · exact absurd (htail ▸ List.mem_append_right tail List.mem_cons_self) hnot
  · cases tail with
    | nil =>
        rw [List.nil_append] at htail
        exact absurd (htail ▸ List.mem_cons_self) hnot
    | cons a tail =>
        have hparts := List.cons.inj htail
        rw [← hparts.1] at hlog
        exact ⟨tail, hparts.2, hlog⟩

/-- The last marked entry of a log, with what stands before and behind it. -/
structure LastMark (mark : α → Bool) (log before : List α) (m : α) (after : List α) : Prop where
  split : log = before ++ m :: after
  marked : mark m = true
  rest : ∀ a ∈ after, mark a = false

namespace LastMark

variable {log more before after : List α} {m m' : α}

theorem of_append (h : LastMark mark (log ++ more) before m after)
    (hmore : ∀ a ∈ more, mark a = false) :
    ∃ after', after = after' ++ more ∧ LastMark mark log before m after' := by
  obtain ⟨after', hafter, hlog⟩ := split_of_unmarked h.split h.marked hmore
  refine ⟨after', hafter, hlog, h.marked, fun a ha => h.rest a ?_⟩
  rw [hafter]
  exact List.mem_append_left more ha

theorem append (h : LastMark mark log before m after) (hmore : ∀ a ∈ more, mark a = false) :
    LastMark mark (log ++ more) before m (after ++ more) := by
  refine ⟨?_, h.marked, fun a ha => ?_⟩
  · rw [h.split, List.append_assoc, List.cons_append]
  · exact (List.mem_append.mp ha).elim (h.rest a) (hmore a)

theorem of_snoc (h : LastMark mark (log ++ [m']) before m after) (hm : mark m' = true) :
    before = log ∧ m = m' ∧ after = [] := by
  cases List.eq_nil_or_concat after with
  | inl hnil =>
      have hsplit := h.split
      rw [hnil] at hsplit
      have hparts := List.append_inj' hsplit rfl
      exact ⟨hparts.1.symm, (List.singleton_inj.mp hparts.2).symm, hnil⟩
  | inr hconcat =>
      obtain ⟨front, a, rfl⟩ := hconcat
      have hsplit := h.split
      rw [List.concat_eq_append, ← List.cons_append, ← List.append_assoc] at hsplit
      have hlast := List.singleton_inj.mp (List.append_inj' hsplit rfl).2
      have hunmarked := h.rest a (by simp)
      rw [← hlast] at hunmarked
      exact absurd (hm.symm.trans hunmarked) Bool.noConfusion

end LastMark

/-- `Q` holds of each mark that another mark follows, with what stands before it and
between the two. -/
def Spaced (mark : α → Bool) (Q : List α → α → List α → Prop) (log : List α) : Prop :=
  ∀ shown m' rest, log = shown ++ m' :: rest → mark m' = true →
    ∀ before m between, LastMark mark shown before m between → Q before m between

namespace Spaced

variable {Q : List α → α → List α → Prop} {log more : List α} {m' : α}

theorem nil : Spaced mark Q [] := by
  intro shown m' rest hsplit
  cases List.append_eq_nil_iff.mp hsplit.symm with
  | intro _ hnil => cases hnil

theorem append (h : Spaced mark Q log) (hmore : ∀ a ∈ more, mark a = false) :
    Spaced mark Q (log ++ more) := by
  intro shown m' rest hsplit hm'
  obtain ⟨rest', -, hlog⟩ := split_of_unmarked hsplit hm' hmore
  exact h shown m' rest' hlog hm'

theorem snoc (h : Spaced mark Q log)
    (hlast : ∀ before m between, LastMark mark log before m between → Q before m between) :
    Spaced mark Q (log ++ [m']) := by
  intro shown m'' rest hsplit hm''
  cases List.eq_nil_or_concat rest with
  | inl hnil =>
      rw [hnil] at hsplit
      have hshown := (List.append_inj' hsplit rfl).1
      rw [← hshown]
      exact hlast
  | inr hconcat =>
      obtain ⟨front, a, rfl⟩ := hconcat
      rw [List.concat_eq_append, ← List.cons_append, ← List.append_assoc] at hsplit
      exact h shown m'' front (List.append_inj' hsplit rfl).1 hm''

end Spaced

end CLib
