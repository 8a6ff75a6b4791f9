import Mathlib.Data.List.Basic
import Mathlib.Data.Finset.Card
import Mathlib.Data.Finset.Range
import Neb2Amqp.Library.Heap

/-!
# Chains and doubly linked lists of addresses

`Chain next p l` says that following `next` from the pointer `p` visits exactly
the addresses `l` and then meets NULL. A doubly linked list is a chain in each
direction; swapping the directions mirrors it, so every surgery is proved at
one end only.
-/

namespace CLib

/-- Following `next` from `p` visits `l` and ends in NULL. -/
def Chain (next : Addr → Option Addr) : Option Addr → List Addr → Prop
  | p, [] => p = none
  | p, a :: l => p = some a ∧ Chain next (next a) l

/-- The addresses met from `p`, at most `fuel` of them. -/
def follow (next : Addr → Option Addr) : Nat → Option Addr → List Addr
  | 0, _ => []
  | _ + 1, none => []
  | fuel + 1, some a => a :: follow next fuel (next a)

namespace Chain

variable {next next' : Addr → Option Addr} {p : Option Addr} {l : List Addr}

theorem start_eq_head? (h : Chain next p l) : p = l.head? := by
  cases l with
  | nil => exact h
  | cons a l => exact h.1

theorem unique {m : List Addr} (hl : Chain next p l) (hm : Chain next p m) : l = m := by
  induction l generalizing p m with
  | nil =>
      cases m with
      | nil => rfl
      | cons b m => exact absurd (hl.symm.trans hm.1) (by simp)
  | cons a l ih =>
      cases m with
      | nil => exact absurd (hl.1.symm.trans hm) (by simp)
      | cons b m =>
          have hab : a = b := Option.some.inj (hl.1.symm.trans hm.1)
          subst hab
          rw [ih hl.2 hm.2]

theorem congr (h : Chain next p l) (hn : ∀ a ∈ l, next' a = next a) : Chain next' p l := by
  induction l generalizing p with
  | nil => exact h
  | cons a l ih =>
      refine ⟨h.1, ?_⟩
      rw [hn a (by simp)]
      exact ih h.2 (fun b hb => hn b (List.mem_cons_of_mem a hb))

theorem suffix {s : List Addr} {a : Addr} {t : List Addr} (h : Chain next p (s ++ a :: t)) :
    Chain next (some a) (a :: t) := by
  induction s generalizing p with
  | nil => exact ⟨rfl, h.2⟩
  | cons b s ih => exact ih h.2

/-- A chain never meets an address twice: from there it would go on for ever. -/
theorem nodup (h : Chain next p l) : l.Nodup := by
  induction l generalizing p with
  | nil => exact List.nodup_nil
  | cons a l ih =>
      refine List.nodup_cons.mpr ⟨?_, ih h.2⟩
      intro hmem
      obtain ⟨s, t, hst⟩ := List.append_of_mem hmem
      have hlater : Chain next (some a) (a :: t) := suffix (s := a :: s) (by simpa [hst] using h)
      have heq : l = t := h.2.unique hlater.2
      have hlen := congrArg List.length hst
      rw [heq] at hlen
      simp only [List.length_append, List.length_cons] at hlen
      omega

theorem concat {z a : Addr} (h : Chain next p (l ++ [z])) (ha : a ∉ l ++ [z])
    (hz : next' z = some a) (hend : next' a = none)
    (hn : ∀ b ∈ l, next' b = next b) : Chain next' p (l ++ [z] ++ [a]) := by
  induction l generalizing p with
  | nil => exact ⟨h.1, hz, hend⟩
  | cons b l ih =>
      refine ⟨h.1, ?_⟩
      rw [hn b (by simp)]
      exact ih h.2 (fun hm => ha (List.mem_cons_of_mem b hm))
        (fun c hc => hn c (List.mem_cons_of_mem b hc))

theorem dropLast {y z : Addr} (h : Chain next p (l ++ [y] ++ [z])) (hy : next' y = none)
    (hn : ∀ b ∈ l, next' b = next b) : Chain next' p (l ++ [y]) := by
  induction l generalizing p with
  | nil => exact ⟨h.1, hy⟩
  | cons b l ih =>
      refine ⟨h.1, ?_⟩
      rw [hn b (by simp)]
      exact ih h.2 (fun c hc => hn c (List.mem_cons_of_mem b hc))

theorem follow_eq (h : Chain next p l) {fuel : Nat} (hfuel : l.length ≤ fuel) :
    follow next fuel p = l := by
  induction l generalizing p fuel with
  | nil =>
      rw [show p = none from h]
      cases fuel <;> rfl
  | cons a l ih =>
      rw [h.1]
      cases fuel with
      | zero => simp at hfuel
      | succ fuel =>
          have hrest : follow next fuel (next a) = l := ih h.2 (by simpa using hfuel)
          simp [follow, hrest]

end Chain

theorem length_le_of_nodup {l : List Addr} {n : Nat} (hnd : l.Nodup) (hlt : ∀ a ∈ l, a < n) :
    l.length ≤ n := by
  have hsub : l.toFinset ⊆ Finset.range n := by
    intro a ha
    exact Finset.mem_range.mpr (hlt a (List.mem_toFinset.mp ha))
  calc
    l.length = l.toFinset.card := (List.toFinset_card_of_nodup hnd).symm
    _ ≤ (Finset.range n).card := Finset.card_le_card hsub
    _ = n := Finset.card_range n

/-- The list `q` between the end pointers `first` and `last`, linked both ways. -/
structure Linked (next prev : Addr → Option Addr) (first last : Option Addr)
    (q : List Addr) : Prop where
  forward : Chain next first q
  backward : Chain prev last q.reverse

namespace Linked

variable {next prev next' prev' : Addr → Option Addr} {first last : Option Addr}
  {q : List Addr}

/-- A doubly linked list read from its other end. -/
theorem mirror (h : Linked next prev first last q) : Linked prev next last first q.reverse :=
  ⟨h.backward, by simpa using h.forward⟩

theorem first_eq (h : Linked next prev first last q) : first = q.head? := h.forward.start_eq_head?

theorem last_eq (h : Linked next prev first last q) : last = q.getLast? := by
  rw [h.backward.start_eq_head?, List.head?_reverse]

theorem singleton {a : Addr} (hn : next a = none) (hp : prev a = none) :
    Linked next prev (some a) (some a) [a] := ⟨⟨rfl, hn⟩, rfl, hp⟩

theorem congr (h : Linked next prev first last q) (hn : ∀ a ∈ q, next' a = next a)
    (hp : ∀ a ∈ q, prev' a = prev a) : Linked next' prev' first last q :=
  ⟨h.forward.congr hn, h.backward.congr (fun a ha => hp a (List.mem_reverse.mp ha))⟩

theorem append {l : List Addr} {z a : Addr} (h : Linked next prev first (some z) (l ++ [z]))
    (ha : a ∉ l ++ [z]) (hz : next' z = some a) (hend : next' a = none)
    (hback : prev' a = some z) (hn : ∀ b ∈ l, next' b = next b)
    (hp : ∀ b ∈ l ++ [z], prev' b = prev b) :
    Linked next' prev' first (some a) (l ++ [z] ++ [a]) := by
  refine ⟨h.forward.concat ha hz hend hn, ?_⟩
  rw [List.reverse_append]
  refine ⟨rfl, ?_⟩
  rw [hback]
  exact h.backward.congr (fun b hb => hp b (List.mem_reverse.mp hb))

theorem tail {a b : Addr} {l : List Addr} (h : Linked next prev first last (a :: b :: l))
    (hb : prev' b = none) (hn : ∀ c ∈ b :: l, next' c = next c)
    (hp : ∀ c ∈ l, prev' c = prev c) : Linked next' prev' (some b) last (b :: l) := by
  have hfwd : Chain next (some b) (b :: l) := ⟨rfl, h.forward.2.2⟩
  refine ⟨hfwd.congr hn, ?_⟩
  have hback : Chain prev last (l.reverse ++ [b] ++ [a]) := by simpa using h.backward
  rw [List.reverse_cons]
  exact hback.dropLast hb (fun c hc => hp c (List.mem_reverse.mp hc))

theorem nodup (h : Linked next prev first last q) : q.Nodup := h.forward.nodup

end Linked

end CLib
