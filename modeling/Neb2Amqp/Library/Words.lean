import Mathlib.Data.List.TakeWhile
import Mathlib.Data.List.Basic

/-!
# Words

The words of a text are its longest runs of elements that are not separators.
-/

namespace CLib

variable {α : Type} {sep : α → Bool}

def words (sep : α → Bool) (text : List α) : List (List α) :=
  (text.splitOnP sep).filter (· ≠ [])

@[simp] theorem words_nil : words sep [] = [] := rfl

theorem words_cons_sep {c : α} (hc : sep c = true) (text : List α) :
    words sep (c :: text) = words sep text := by
  rw [words, List.splitOnP_cons_eq_if_modifyHead, if_pos hc]
  rfl

theorem words_of_separators {gap : List α} (hgap : ∀ c ∈ gap, sep c = true) (text : List α) :
    words sep (gap ++ text) = words sep text := by
  induction gap with
  | nil => rfl
  | cons c gap ih =>
      obtain ⟨hc, hrest⟩ := List.forall_mem_cons.mp hgap
      rw [List.cons_append, words_cons_sep hc, ih hrest]

theorem words_word {word : List α} (hword : ∀ c ∈ word, sep c = false) (hne : word ≠ []) :
    words sep word = [word] := by
  rw [words, List.splitOnP_eq_singleton hword]
  simp [hne]

theorem words_word_sep {word : List α} (hword : ∀ c ∈ word, sep c = false) (hne : word ≠ [])
    {c : α} (hc : sep c = true) (text : List α) :
    words sep (word ++ c :: text) = word :: words sep text := by
  rw [words, List.splitOnP_append_cons_of_forall_mem hword c hc]
  simp [words, hne]

theorem words_eq_nil {text : List α} (hall : ∀ c ∈ text, sep c = true) : words sep text = [] := by
  have hgap := words_of_separators hall []
  rwa [List.append_nil] at hgap

theorem words_gap_word {gap word rest : List α} (hgap : ∀ c ∈ gap, sep c = true)
    (hne : word ≠ []) (hword : ∀ c ∈ word, sep c = false) (hrest : ∀ c ∈ rest.head?, sep c = true) :
    words sep (gap ++ (word ++ rest)) = word :: words sep rest.tail := by
  rw [words_of_separators hgap]
  cases rest with
  | nil => rw [List.append_nil, words_word hword hne, List.tail_nil, words_nil]
  | cons c rest => exact words_word_sep hword hne (hrest c rfl) rest

theorem ne_nil_of_mem_words {text word : List α} (h : word ∈ words sep text) : word ≠ [] := by
  have hne := (List.mem_filter.mp h).2
  simpa using hne

theorem subset_of_mem_splitOnP {text piece : List α} (h : piece ∈ text.splitOnP sep) :
    piece ⊆ text := by
  induction text generalizing piece with
  | nil =>
      cases List.mem_singleton.mp h
      exact List.Subset.refl _
  | cons c text ih =>
      rw [List.splitOnP_cons_eq_if_modifyHead] at h
      split at h
      · cases h with
        | head => exact List.nil_subset _
        | tail _ hrest => exact List.subset_cons_of_subset c (ih hrest)
      · cases hsplit : text.splitOnP sep with
        | nil => exact absurd hsplit (List.splitOnP_ne_nil sep text)
        | cons first more =>
            rw [hsplit] at h ih
            cases h with
            | head => exact List.cons_subset_cons c (ih List.mem_cons_self)
            | tail _ hrest =>
                exact List.subset_cons_of_subset c (ih (List.mem_cons_of_mem first hrest))

theorem subset_of_mem_words {text word : List α} (h : word ∈ words sep text) : word ⊆ text :=
  subset_of_mem_splitOnP (List.mem_filter.mp h).1

/-- Either no word is left, or the text is a gap, a word and what follows it. -/
theorem words_cases (sep : α → Bool) (text : List α) :
    (∀ c ∈ text, sep c = true) ∨
      ∃ gap word rest, text = gap ++ (word ++ rest) ∧ (∀ c ∈ gap, sep c = true) ∧
        word ≠ [] ∧ (∀ c ∈ word, sep c = false) ∧ ∀ c ∈ rest.head?, sep c = true := by
  by_cases hall : ∀ c ∈ text, sep c = true
  · exact .inl hall
  · right
    have hgap : ∀ c ∈ text.takeWhile sep, sep c = true := fun c => List.mem_takeWhile_imp
    have hstart : text.dropWhile sep ≠ [] := fun h => hall (List.dropWhile_eq_nil_iff.mp h)
    refine ⟨text.takeWhile sep, (text.dropWhile sep).takeWhile (!sep ·),
      (text.dropWhile sep).dropWhile (!sep ·), ?_, hgap, ?_, ?_, ?_⟩
    · rw [List.takeWhile_append_dropWhile, List.takeWhile_append_dropWhile]
    · have hhead := List.head_dropWhile_not sep hstart
      obtain ⟨c, rest, hrest⟩ := List.exists_cons_of_ne_nil hstart
      simp only [hrest, List.head_cons] at hhead
      rw [hrest, List.takeWhile_cons_of_pos (by simp [hhead])]
      exact List.cons_ne_nil c _
    · intro c hc
      simpa using List.mem_takeWhile_imp hc
    · intro c hc
      have hhead := List.head?_dropWhile_not (!sep ·) (text.dropWhile sep)
      rw [Option.mem_def.mp hc] at hhead
      simpa using hhead

end CLib
