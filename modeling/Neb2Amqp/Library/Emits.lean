import Mathlib.Data.List.Basic

/-!
# Output that can stop in the middle

Operations that change a state and may fail, and what each of them adds to the list that the
state has handed out. An operation `Emits` a list if it adds all of it where it succeeds and a
part from its front where it fails; it fails `Early` if that part is never all of it. It is
`Affordable` if a state with enough credit lets it succeed.
-/

namespace CLib

variable {σ ε α β : Type}

/-- An operation on a state that may fail. -/
abbrev Attempt (σ ε : Type) := σ → Except ε Unit × σ

namespace Attempt

def done : Attempt σ ε := fun s => (.ok (), s)

def fail (e : ε) : Attempt σ ε := fun s => (.error e, s)

/-- The second operation, unless the first one fails. -/
def andThen (f g : Attempt σ ε) : Attempt σ ε := fun s =>
  match f s with
  | (.ok (), s) => g s
  | (.error e, s) => (.error e, s)

/-- One operation after the other, up to the first that fails. -/
def each (f : β → Attempt σ ε) : List β → Attempt σ ε
  | [] => done
  | b :: rest => (f b).andThen (each f rest)

theorem andThen_cases {f g : Attempt σ ε} {s s' : σ} {r : Except ε Unit}
    (h : f.andThen g s = (r, s')) :
    (∃ t, f s = (.ok (), t) ∧ g t = (r, s')) ∨ ∃ e, r = .error e ∧ f s = (.error e, s') := by
  unfold andThen at h
  split at h
  · rename_i t hf
    exact .inl ⟨t, hf, h⟩
  · rename_i e t hf
    cases h
    exact .inr ⟨e, rfl, hf⟩

end Attempt

structure Emits (out : σ → List α) (f : Attempt σ ε) (b : List α) : Prop where
  all : ∀ {s s'}, f s = (.ok (), s') → out s' = out s ++ b
  part : ∀ {s e s'}, f s = (.error e, s') → ∃ front, front <+: b ∧ out s' = out s ++ front

/-- Where the operation fails, something of `b` is missing. -/
def Early (out : σ → List α) (f : Attempt σ ε) (b : List α) : Prop :=
  ∀ s e s', f s = (.error e, s') → out s' ≠ out s ++ b

variable {out : σ → List α} {f g : Attempt σ ε} {b c : List α}

theorem emits_done : Emits out (Attempt.done : Attempt σ ε) [] where
  all := fun h => by
    cases h
    exact (List.append_nil _).symm
  part := fun h => by cases h

theorem emits_fail (e : ε) (b : List α) : Emits out (Attempt.fail e) b where
  all := fun h => by cases h
  part := fun h => by
    cases h
    exact ⟨[], List.nil_prefix, (List.append_nil _).symm⟩

theorem early_done : Early out (Attempt.done : Attempt σ ε) b := by
  intro s e s' h
  cases h

theorem early_fail (e : ε) (hb : b ≠ []) : Early out (Attempt.fail e) b := by
  intro s e' s' h hall
  cases h
  exact hb (List.append_right_eq_self.mp hall.symm)

theorem Emits.andThen (hf : Emits out f b) (hg : Emits out g c) : Emits out (f.andThen g) (b ++ c) where
  all := by
    intro s s' h
    rcases Attempt.andThen_cases h with ⟨t, hfirst, hsecond⟩ | ⟨e, he, _⟩
    · rw [hg.all hsecond, hf.all hfirst, List.append_assoc]
    · cases he
  part := by
    intro s e s' h
    rcases Attempt.andThen_cases h with ⟨t, hfirst, hsecond⟩ | ⟨e, _, hfirst⟩
    · obtain ⟨front, hfront, hout⟩ := hg.part hsecond
      refine ⟨b ++ front, (List.prefix_append_right_inj b).mpr hfront, ?_⟩
      rw [hout, hf.all hfirst, List.append_assoc]
    · obtain ⟨front, hfront, hout⟩ := hf.part hfirst
      exact ⟨front, hfront.trans (List.prefix_append b c), hout⟩

/-- The second operation has something to emit, so that a failure of the first is early. -/
theorem Emits.early_andThen (hf : Emits out f b) (hc : c ≠ []) (hg : Early out g c) :
    Early out (f.andThen g) (b ++ c) := by
  intro s e s' h hall
  rcases Attempt.andThen_cases h with ⟨t, hfirst, hsecond⟩ | ⟨e, _, hfirst⟩
  · rw [← List.append_assoc, ← hf.all hfirst] at hall
    exact hg _ _ _ hsecond hall
  · obtain ⟨front, hfront, hout⟩ := hf.part hfirst
    rw [hout] at hall
    have hlength := congrArg List.length (List.append_cancel_left hall)
    rw [List.length_append] at hlength
    have hpos := List.length_pos_iff.mpr hc
    have hle := hfront.length_le
    omega

theorem Emits.each {f : β → Attempt σ ε} {g : β → List α} {l : List β}
    (h : ∀ x ∈ l, Emits out (f x) (g x)) : Emits out (Attempt.each f l) (l.flatMap g) := by
  induction l with
  | nil => exact emits_done
  | cons x rest ih =>
      rw [List.flatMap_cons]
      exact (h x List.mem_cons_self).andThen (ih fun y hy => h y (List.mem_cons_of_mem x hy))

theorem Early.andThen_done (hf : Early out f b) : Early out (f.andThen .done) (b ++ []) := by
  intro s e s' h
  rw [List.append_nil]
  rcases Attempt.andThen_cases h with ⟨t, _, hsecond⟩ | ⟨e, he, hfirst⟩
  · cases hsecond
  · cases he
    exact hf _ _ _ hfirst

theorem Early.each {f : β → Attempt σ ε} {g : β → List α} {l : List β}
    (h : ∀ x ∈ l, Emits out (f x) (g x)) (hearly : ∀ x ∈ l, Early out (f x) (g x))
    (hne : ∀ x ∈ l, g x ≠ []) : Early out (Attempt.each f l) (l.flatMap g) := by
  induction l with
  | nil => exact early_done
  | cons x rest ih =>
      rw [List.flatMap_cons]
      cases rest with
      | nil => exact (hearly x List.mem_cons_self).andThen_done
      | cons y rest =>
          apply (h x List.mem_cons_self).early_andThen
          · rw [List.flatMap_cons]
            exact List.append_ne_nil_of_left_ne_nil (hne y (List.mem_cons_of_mem x List.mem_cons_self)) _
          · exact ih (fun z hz => h z (List.mem_cons_of_mem x hz))
              (fun z hz => hearly z (List.mem_cons_of_mem x hz))
              (fun z hz => hne z (List.mem_cons_of_mem x hz))

/-! ## Getting to the end -/

/-- With a credit of `n` the operation succeeds, and uses up no more than that. -/
def Affordable (credit : σ → Nat) (n : Nat) (f : Attempt σ ε) : Prop :=
  ∀ s, n ≤ credit s → ∃ s', f s = (.ok (), s') ∧ credit s ≤ credit s' + n

theorem affordable_done {credit : σ → Nat} : Affordable credit 0 (Attempt.done : Attempt σ ε) :=
  fun s _ => ⟨s, rfl, Nat.le_refl _⟩

theorem Affordable.andThen {credit : σ → Nat} {n m : Nat} (hf : Affordable credit n f)
    (hg : Affordable credit m g) : Affordable credit (n + m) (f.andThen g) := by
  intro s hcredit
  obtain ⟨t, hfirst, hleft⟩ := hf s (by omega)
  obtain ⟨s', hsecond, hrest⟩ := hg t (by omega)
  refine ⟨s', ?_, by omega⟩
  unfold Attempt.andThen
  rw [hfirst]
  exact hsecond

theorem Affordable.each {credit : σ → Nat} {f : β → Attempt σ ε} {g : β → List α} {l : List β}
    (h : ∀ x ∈ l, Affordable credit (g x).length (f x)) :
    Affordable credit (l.flatMap g).length (Attempt.each f l) := by
  induction l with
  | nil => exact affordable_done
  | cons x rest ih =>
      rw [List.flatMap_cons, List.length_append]
      exact (h x List.mem_cons_self).andThen (ih fun y hy => h y (List.mem_cons_of_mem x hy))

end CLib
