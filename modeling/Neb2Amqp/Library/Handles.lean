import Mathlib.Data.List.Induction
import Mathlib.Data.List.Nodup

/-!
# Handles that are acquired, used and released

A log of what is done with handles is disciplined if each handle is acquired once
and whatever is used or released is live then.
-/

namespace CLib

inductive HandleCall (α : Type)
  | acquire (a : α)
  | use (a : α)
  | release (a : α)

variable {α : Type}

namespace HandleCall

def acquired (log : List (HandleCall α)) : List α :=
  log.filterMap fun
    | acquire a => some a
    | _ => none

def released (log : List (HandleCall α)) : List α :=
  log.filterMap fun
    | release a => some a
    | _ => none

def Live (log : List (HandleCall α)) (a : α) : Prop := a ∈ acquired log ∧ a ∉ released log

/-- What may be done behind `log`. -/
def Allowed (log : List (HandleCall α)) : HandleCall α → Prop
  | acquire a => a ∉ acquired log
  | use a => Live log a
  | release a => Live log a

def Disciplined (log : List (HandleCall α)) : Prop :=
  ∀ before x after, log = before ++ x :: after → x.Allowed before

variable {log more : List (HandleCall α)}

theorem acquired_append (log more : List (HandleCall α)) :
    acquired (log ++ more) = acquired log ++ acquired more := List.filterMap_append

theorem released_append (log more : List (HandleCall α)) :
    released (log ++ more) = released log ++ released more := List.filterMap_append

theorem Disciplined.nil : Disciplined ([] : List (HandleCall α)) := by
  intro before x after hsplit
  exact absurd hsplit (by simp)

theorem Disciplined.snoc (h : Disciplined log) {x : HandleCall α} (hx : x.Allowed log) :
    Disciplined (log ++ [x]) := by
  intro before y after hsplit
  cases List.eq_nil_or_concat after with
  | inl hnil =>
      rw [hnil] at hsplit
      have hparts := List.append_inj' hsplit rfl
      rw [← hparts.1, ← List.singleton_inj.mp hparts.2]
      exact hx
  | inr hconcat =>
      obtain ⟨front, a, rfl⟩ := hconcat
      rw [List.concat_eq_append, ← List.cons_append, ← List.append_assoc] at hsplit
      exact h before y front (List.append_inj' hsplit rfl).1

theorem Disciplined.of_append (h : Disciplined (log ++ more)) : Disciplined log := by
  intro before x after hsplit
  apply h before x (after ++ more)
  rw [hsplit, List.append_assoc, List.cons_append]

theorem Disciplined.uses (h : Disciplined log) (hmore : ∀ x ∈ more, ∃ a, x = use a ∧ Live log a) :
    Disciplined (log ++ more) ∧ acquired (log ++ more) = acquired log ∧
      released (log ++ more) = released log := by
  induction more generalizing log with
  | nil =>
      rw [List.append_nil]
      exact ⟨h, rfl, rfl⟩
  | cons x more ih =>
      obtain ⟨hx, hrest⟩ := List.forall_mem_cons.mp hmore
      obtain ⟨a, rfl, hlive⟩ := hx
      have hacquired : acquired (log ++ [use a]) = acquired log := by
        rw [acquired_append]
        exact List.append_nil _
      have hreleased : released (log ++ [use a]) = released log := by
        rw [released_append]
        exact List.append_nil _
      have hnext := ih (h.snoc (x := use a) hlive) (by
        intro y hy
        obtain ⟨c, hc, hlive'⟩ := hrest y hy
        exact ⟨c, hc, hacquired ▸ hlive'.1, hreleased ▸ hlive'.2⟩)
      rw [List.append_assoc, List.singleton_append, hacquired, hreleased] at hnext
      exact hnext

/-- No handle is released twice. -/
theorem Disciplined.released_nodup (h : Disciplined log) : (released log).Nodup := by
  induction log using List.reverseRecOn with
  | nil => exact List.nodup_nil
  | append_singleton log x ih =>
      rw [released_append]
      have hlog := ih h.of_append
      cases x with
      | acquire a | use a => exact (List.append_nil (released log)).symm ▸ hlog
      | release a =>
          have hlive : Live log a := h log (release a) [] rfl
          have hone : released [release a] = [a] := rfl
          rw [hone, ← List.concat_eq_append]
          exact hlog.concat hlive.2

/-! ## One handle at a time -/

/-- The log of someone who holds `held` and has lost `lost` handles before: neither
released them nor holds them. -/
structure Holds (log : List (HandleCall α)) (held : Option α) (lost : Nat) : Prop where
  disciplined : Disciplined log
  live : ∀ a, held = some a → Live log a
  balance : (acquired log).length = (released log).length + held.toList.length + lost

namespace Holds

variable {a : α} {lost : Nat}

theorem nil : Holds ([] : List (HandleCall α)) none 0 :=
  ⟨.nil, fun _ hnone => (nomatch hnone), rfl⟩

theorem uses (h : Holds log (some a) lost) (hmore : ∀ x ∈ more, x = use a) :
    Holds (log ++ more) (some a) lost := by
  have hlive := h.live a rfl
  obtain ⟨hdisciplined, hacquired, hreleased⟩ :=
    h.disciplined.uses fun x hx => ⟨a, hmore x hx, hlive⟩
  refine ⟨hdisciplined, fun c hc => ?_, ?_⟩
  · rw [Live, hacquired, hreleased]
    exact h.live c hc
  · rw [hacquired, hreleased]
    exact h.balance

theorem acquire (h : Holds log none lost) (hfresh : a ∉ acquired log) :
    Holds (log ++ [.acquire a]) (some a) lost := by
  have hdisciplined := h.disciplined.snoc (x := .acquire a) hfresh
  have hacquired : acquired (log ++ [.acquire a]) = acquired log ++ [a] := acquired_append _ _
  have hreleased : released (log ++ [.acquire a]) = released log := by
    rw [released_append]
    exact List.append_nil _
  have hunreleased : a ∉ released log := by
    intro hmem
    obtain ⟨x, hx, hcall⟩ := List.mem_filterMap.mp hmem
    obtain ⟨before, after, hsplit⟩ := List.append_of_mem hx
    cases x with
    | acquire c | use c => cases hcall
    | release c =>
        cases hcall
        have hlive : Live before a := h.disciplined before (release a) after hsplit
        apply hfresh
        rw [hsplit, acquired_append]
        exact List.mem_append_left _ hlive.1
  refine ⟨hdisciplined, fun c hc => ?_, ?_⟩
  · cases hc
    rw [Live, hacquired, hreleased]
    exact ⟨by simp, hunreleased⟩
  · rw [hacquired, hreleased, List.length_append, h.balance]
    exact Nat.add_right_comm _ _ _

theorem release (h : Holds log (some a) lost) : Holds (log ++ [.release a]) none lost := by
  have hdisciplined := h.disciplined.snoc (x := .release a) (h.live a rfl)
  have hacquired : acquired (log ++ [.release a]) = acquired log := by
    rw [acquired_append]
    exact List.append_nil _
  have hreleased : released (log ++ [.release a]) = released log ++ [a] := released_append _ _
  refine ⟨hdisciplined, fun _ hnone => (nomatch hnone), ?_⟩
  rw [hacquired, hreleased, List.length_append, h.balance]
  rfl

theorem forget (h : Holds log (some a) lost) : Holds log none (lost + 1) := by
  refine ⟨h.disciplined, fun _ hnone => (nomatch hnone), ?_⟩
  rw [h.balance]
  exact Nat.add_right_comm _ _ _

end Holds

end HandleCall

end CLib
