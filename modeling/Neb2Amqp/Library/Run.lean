import Mathlib.Logic.Basic

/-!
# Runs of a machine with partial steps

`Always` holds of every state a run reaches after one of its steps, `Each` of
every step it takes. An action that is not possible ends the run.
-/

namespace CLib

theorem bind_ok {ε α β : Type} {x : Except ε α} {f : α → Except ε β} {b : β}
    (h : x >>= f = .ok b) : ∃ a, x = .ok a ∧ f a = .ok b := by
  cases x with
  | error e => cases h
  | ok a => exact ⟨a, rfl, h⟩

variable {σ ι : Type}

def Always (step : σ → ι → Option σ) (P : σ → Prop) : σ → List ι → Prop
  | _, [] => True
  | s, i :: is => ∀ s', step s i = some s' → P s' ∧ Always step P s' is

def Each (step : σ → ι → Option σ) (C : σ → ι → Prop) : σ → List ι → Prop
  | _, [] => True
  | s, i :: is => ∀ s', step s i = some s' → C s i ∧ Each step C s' is

variable {step : σ → ι → Option σ} {Inv P : σ → Prop} {C : σ → ι → Prop}

theorem Always.mono {Q : σ → Prop} (h : ∀ s, P s → Q s) {s : σ} {is : List ι}
    (hp : Always step P s is) : Always step Q s is := by
  induction is generalizing s with
  | nil => trivial
  | cons i is ih =>
      intro s' hs
      obtain ⟨hnow, hlater⟩ := hp s' hs
      exact ⟨h s' hnow, ih hlater⟩

theorem each_cons_iff {s s' : σ} {i : ι} {is : List ι} (hs : step s i = some s') :
    Each step C s (i :: is) ↔ C s i ∧ Each step C s' is := by
  constructor
  · exact fun h => h s' hs
  · intro h t ht
    rw [hs] at ht
    cases ht
    exact h

theorem each_cons_of_none {s : σ} {i : ι} {is : List ι} (hs : step s i = none) :
    Each step C s (i :: is) := by
  intro t ht
  rw [hs] at ht
  cases ht

/-- A run can be checked step by step. -/
instance decidableEach [∀ s i, Decidable (C s i)] : ∀ s is, Decidable (Each step C s is)
  | _, [] => isTrue trivial
  | s, i :: is =>
      match hs : step s i with
      | none => isTrue (each_cons_of_none hs)
      | some s' =>
          have := decidableEach s' is
          decidable_of_iff (C s i ∧ Each step C s' is) (each_cons_iff hs).symm

/-- An invariant that steps meeting `C` keep holds along every run of such steps. -/
theorem always_of_each (hkeep : ∀ s i s', Inv s → C s i → step s i = some s' → Inv s') {s : σ}
    {is : List ι} (hinv : Inv s) (hc : Each step C s is) : Always step Inv s is := by
  induction is generalizing s with
  | nil => trivial
  | cons i is ih =>
      intro s' hs
      obtain ⟨hnow, hlater⟩ := hc s' hs
      have hnext : Inv s' := hkeep s i s' hinv hnow hs
      exact ⟨hnext, ih hnext hlater⟩

/-- Where one step gives the property exactly when it meets `C`, so does a run. -/
theorem always_iff_each (hstep : ∀ s i s', Inv s → step s i = some s' → (P s' ↔ C s i))
    (hkeep : ∀ s i s', Inv s → step s i = some s' → P s' → Inv s') {s : σ} {is : List ι}
    (hinv : Inv s) : Always step P s is ↔ Each step C s is := by
  induction is generalizing s with
  | nil => exact Iff.rfl
  | cons i is ih =>
      apply forall₂_congr
      intro s' hs
      rw [hstep s i s' hinv hs]
      apply and_congr_right
      intro hc
      exact ih (hkeep s i s' hinv hs ((hstep s i s' hinv hs).mpr hc))

end CLib
