import Neb2Amqp.Library.BoundedDeque
import Neb2Amqp.Fifo.Queue

/-!
# Which list a queue holds

`Holds` is the relation every caller of the module can rely on: it leaves the
`last` pointer of an emptied queue free, since `n2a_shift` does not reset it.
Each operation has one lemma for the list it leaves and one for what it does
not touch.
-/

namespace Neb2Amqp

open CLib

/-- The nodes of `q` are linked both ways, live, counted and within the limit. -/
structure Fifo.Holds (f : Fifo) (q : List Addr) : Prop where
  linked : q ≠ [] → Linked (pNext f.heap) (pPrev f.heap) f.first f.last q
  emptied : q = [] → f.first = none
  live : ∀ a ∈ q, Live f.heap a
  size : f.size.toNat = q.length
  fits : q.length ≤ f.maxSize.toNat

/-- An event no queue operation has linked yet, or has unlinked again. -/
structure Loose (h : EventHeap) (a : Addr) : Prop where
  live : Live h a
  noNext : pNext h a = none
  noPrev : pPrev h a = none

/-- What the queue operations leave alone. -/
structure Fifo.SameFile (f f' : Fifo) : Prop where
  maxSize : f'.maxSize = f.maxSize
  pFile : f'.pFile = f.pFile
  disk : f'.disk = f.disk
  fileLock : f'.fileLock = f.fileLock

namespace Fifo

theorem SameFile.refl (f : Fifo) : f.SameFile f := ⟨rfl, rfl, rfl, rfl⟩

theorem SameFile.trans {f g h : Fifo} (hfg : f.SameFile g) (hgh : g.SameFile h) : f.SameFile h :=
  ⟨hgh.maxSize.trans hfg.maxSize, hgh.pFile.trans hfg.pFile, hgh.disk.trans hfg.disk,
    hgh.fileLock.trans hfg.fileLock⟩

theorem created_holds (maxSize : UInt32) (disk : Disk) : (created maxSize disk).Holds [] :=
  ⟨fun h => absurd rfl h, fun _ => rfl, fun _ ha => absurd ha (by simp), rfl, Nat.zero_le _⟩

namespace Holds

variable {f : Fifo} {q : List Addr}

theorem first_eq (h : f.Holds q) : f.first = q.head? := by
  cases q with
  | nil => exact h.emptied rfl
  | cons a l => exact (h.linked (by simp)).first_eq

theorem forward (h : f.Holds q) : Chain (pNext f.heap) f.first q := by
  cases q with
  | nil => exact h.emptied rfl
  | cons a l => exact (h.linked (by simp)).forward

theorem nodup (h : f.Holds q) : q.Nodup := h.forward.nodup

/-- The walk from `first` meets exactly the nodes of the list. -/
theorem nodes_eq (h : f.Holds q) : f.nodes = q :=
  h.forward.follow_eq (length_le_of_nodup h.nodup (fun a ha => (h.live a ha).lt_top))

theorem unique {q' : List Addr} (h : f.Holds q) (h' : f.Holds q') : q = q' :=
  h.forward.unique h'.forward

end Holds

end Fifo

/-! ## The counter -/

theorem size_pred {n : UInt32} {k : Nat} (h : n.toNat = k + 1) : (n - 1).toNat = k := by
  have hle : 1 ≤ n := UInt32.le_iff_toNat_le.mpr (by simp [h])
  rw [UInt32.toNat_sub_of_le _ _ hle, h]
  rfl

theorem size_succ {n : UInt32} {k : Nat} (h : n.toNat = k) (hlt : k + 1 < 2 ^ 32) :
    (n + 1).toNat = k + 1 := by
  rw [UInt32.toNat_add, h]
  exact Nat.mod_eq_of_lt hlt

theorem n2aCheckSize_eq (f : Fifo) :
    n2aCheckSize f = { f with full := decide (f.maxSize ≤ f.size) } := by
  unfold n2aCheckSize
  by_cases hlt : f.size < f.maxSize
  · have hnot : ¬ f.maxSize ≤ f.size := UInt32.not_le.mpr hlt
    simp [hlt, hnot]
  · have hle : f.maxSize ≤ f.size := UInt32.not_lt.mp hlt
    cases hfull : f.full <;> simp [hlt, hle, ← hfull]

/-! ## n2a_shift and n2a_pop -/

theorem n2aShift_fst (f : Fifo) : (n2aShift f).1 = f.first := by
  unfold n2aShift
  cases hf : f.first with
  | none => rfl
  | some a => rfl

theorem n2aShift_of_none {f : Fifo} (h : f.first = none) : n2aShift f = (none, f) := by
  simp [n2aShift, h]

theorem n2aPop_of_none {f : Fifo} (h : f.last = none) : n2aPop f = (none, f) := by
  simp [n2aPop, h]

theorem n2aShift_eventAt (f : Fifo) : eventAt (n2aShift f).2.heap = eventAt f.heap := by
  funext b
  unfold n2aShift
  cases hf : f.first with
  | none => rfl
  | some a => cases hn : pNext f.heap a <;> simp [hn]

theorem n2aPop_eventAt (f : Fifo) : eventAt (n2aPop f).2.heap = eventAt f.heap := by
  funext b
  unfold n2aPop
  cases hf : f.last with
  | none => rfl
  | some a => cases hn : pPrev f.heap a <;> simp [hn]

theorem n2aShift_sameFile (f : Fifo) : f.SameFile (n2aShift f).2 := by
  unfold n2aShift
  cases hf : f.first with
  | none => exact .refl f
  | some a => cases hn : pNext f.heap a <;> simp only [hn] <;> exact ⟨rfl, rfl, rfl, rfl⟩

theorem n2aPop_sameFile (f : Fifo) : f.SameFile (n2aPop f).2 := by
  unfold n2aPop
  cases hf : f.last with
  | none => exact .refl f
  | some a => cases hn : pPrev f.heap a <;> simp only [hn] <;> exact ⟨rfl, rfl, rfl, rfl⟩

/-- `n2a_shift` never writes the `last` pointer. -/
theorem n2aShift_last (f : Fifo) : (n2aShift f).2.last = f.last := by
  unfold n2aShift
  cases hf : f.first with
  | none => rfl
  | some a => cases hn : pNext f.heap a <;> simp only [hn]

theorem n2aPop_first (f : Fifo) : (n2aPop f).2.first = f.first := by
  unfold n2aPop
  cases hf : f.last with
  | none => rfl
  | some a => cases hn : pPrev f.heap a <;> simp only [hn]

theorem n2aShift_dirty {f : Fifo} {a : Addr} (h : f.first = some a) :
    (n2aShift f).2.dirty = true := by
  simp [n2aShift, h]

theorem n2aShift_loose {f : Fifo} {a : Addr} (h : f.first = some a) (ha : Live f.heap a) :
    Loose (n2aShift f).2.heap a := by
  unfold n2aShift
  simp only [h]
  cases hn : pNext f.heap a with
  | none => exact ⟨by simpa, by simp [pNext_setNext_self _ ha], pPrev_setPrev_self _ (by simpa)⟩
  | some b =>
      refine ⟨by simpa, ?_, pPrev_setPrev_self _ (by simpa)⟩
      rw [pNext_setPrev]
      exact pNext_setNext_self _ (by simpa)

theorem n2aPop_loose {f : Fifo} {a : Addr} (h : f.last = some a) (ha : Live f.heap a) :
    Loose (n2aPop f).2.heap a := by
  unfold n2aPop
  simp only [h]
  cases hn : pPrev f.heap a with
  | none => exact ⟨by simpa, by simp [pNext_setNext_self _ ha], pPrev_setPrev_self _ (by simpa)⟩
  | some b =>
      refine ⟨by simpa, ?_, pPrev_setPrev_self _ (by simpa)⟩
      rw [pNext_setPrev]
      exact pNext_setNext_self _ (by simpa)

theorem unlink_first {h : EventHeap} {first last : Option Addr} {a b : Addr} {l : List Addr}
    (hq : Linked (pNext h) (pPrev h) first last (a :: b :: l)) (hb : Live h b) :
    let h' := setPrev (setNext (setPrev h (some b) none) (some a) none) (some a) none
    Linked (pNext h') (pPrev h') (some b) last (b :: l) := by
  have hnd := hq.nodup
  have hab : b ≠ a := by
    rintro rfl
    simp at hnd
  refine hq.tail ?_ ?_ ?_
  · rw [pPrev_setPrev_of_ne _ hab, pPrev_setNext]
    exact pPrev_setPrev_self _ hb
  · intro c hc
    have hca : c ≠ a := by
      rintro rfl
      exact (List.nodup_cons.mp hnd).1 hc
    rw [pNext_setPrev, pNext_setNext_of_ne _ hca, pNext_setPrev]
  · intro c hc
    have hca : c ≠ a := by
      rintro rfl
      exact (List.nodup_cons.mp hnd).1 (List.mem_cons_of_mem b hc)
    have hcb : c ≠ b := by
      rintro rfl
      exact (List.nodup_cons.mp (List.nodup_cons.mp hnd).2).1 hc
    rw [pPrev_setPrev_of_ne _ hca, pPrev_setNext, pPrev_setPrev_of_ne _ hcb]

theorem unlink_last {h : EventHeap} {first last : Option Addr} {a b : Addr} {l : List Addr}
    (hq : Linked (pNext h) (pPrev h) first last (l ++ [b] ++ [a])) (hb : Live h b) :
    let h' := setPrev (setNext (setNext h (some b) none) (some a) none) (some a) none
    Linked (pNext h') (pPrev h') first (some b) (l ++ [b]) := by
  have hm : Linked (pPrev h) (pNext h) last first (a :: b :: l.reverse) := by
    simpa using hq.mirror
  have hnd := hm.nodup
  have hab : b ≠ a := by
    rintro rfl
    simp at hnd
  have hcut : Linked (pPrev (setPrev (setNext (setNext h (some b) none) (some a) none) (some a) none))
      (pNext (setPrev (setNext (setNext h (some b) none) (some a) none) (some a) none))
      (some b) first (b :: l.reverse) := by
    refine hm.tail ?_ ?_ ?_
    · rw [pNext_setPrev, pNext_setNext_of_ne _ hab]
      exact pNext_setNext_self _ hb
    · intro c hc
      have hca : c ≠ a := by
        rintro rfl
        exact (List.nodup_cons.mp hnd).1 hc
      rw [pPrev_setPrev_of_ne _ hca, pPrev_setNext, pPrev_setNext]
    · intro c hc
      have hca : c ≠ a := by
        rintro rfl
        exact (List.nodup_cons.mp hnd).1 (List.mem_cons_of_mem b hc)
      have hcb : c ≠ b := by
        rintro rfl
        exact (List.nodup_cons.mp (List.nodup_cons.mp hnd).2).1 hc
      rw [pNext_setPrev, pNext_setNext_of_ne _ hca, pNext_setNext_of_ne _ hcb]
  simpa using hcut.mirror

theorem n2aShift_holds {f : Fifo} {q : List Addr} (h : f.Holds q) :
    (n2aShift f).2.Holds q.tail := by
  cases q with
  | nil => rwa [n2aShift_of_none (h.emptied rfl)]
  | cons a l =>
      have hq := h.linked (by simp)
      have hlive : ∀ c ∈ l, Live (n2aShift f).2.heap c := by
        intro c hc
        rw [Live, n2aShift_eventAt]
        exact h.live c (List.mem_cons_of_mem a hc)
      have hsize : (f.size - 1).toNat = l.length := size_pred h.size
      have hfits : l.length ≤ f.maxSize.toNat := Nat.le_trans (by simp) h.fits
      have hfirst : f.first = some a := hq.forward.1
      cases l with
      | nil =>
          have hnext : pNext f.heap a = none := hq.forward.2
          unfold n2aShift at hlive ⊢
          simp only [hfirst, hnext] at hlive ⊢
          exact ⟨fun hne => absurd rfl hne, fun _ => rfl, hlive, hsize, hfits⟩
      | cons b l =>
          have hnext : pNext f.heap a = some b := hq.forward.2.1
          have hcut := unlink_first hq (h.live b (by simp))
          unfold n2aShift at hlive ⊢
          simp only [hfirst, hnext] at hlive ⊢
          exact ⟨fun _ => hcut, fun hnil => absurd hnil (by simp), hlive, hsize, hfits⟩

theorem n2aPop_holds {f : Fifo} {l : List Addr} {a b : Addr}
    (h : f.Holds (l ++ [b] ++ [a])) : (n2aPop f).2.Holds (l ++ [b]) := by
  have hq := h.linked (by simp)
  have hlive : ∀ c ∈ l ++ [b], Live (n2aPop f).2.heap c := by
    intro c hc
    rw [Live, n2aPop_eventAt]
    exact h.live c (List.mem_append_left [a] hc)
  have hsize : (f.size - 1).toNat = (l ++ [b]).length := size_pred (by simpa using h.size)
  have hfits : (l ++ [b]).length ≤ f.maxSize.toNat := Nat.le_trans (by simp) h.fits
  have hlast : f.last = some a := by simpa using hq.last_eq
  have hprev : pPrev f.heap a = some b := by
    have hback : Chain (pPrev f.heap) f.last (a :: b :: l.reverse) := by simpa using hq.backward
    exact hback.2.1
  have hcut := unlink_last hq (h.live b (by simp))
  unfold n2aPop at hlive ⊢
  simp only [hlast, hprev] at hlive ⊢
  exact ⟨fun _ => hcut, fun hnil => absurd hnil (by simp), hlive, hsize, hfits⟩

/-! ## Freeing -/

theorem pNext_erase_of_ne {h : EventHeap} {a b : Addr} (hne : b ≠ a) :
    pNext (h.erase a) b = pNext h b := by
  rw [pNext, Heap.erase_cell_of_ne _ hne, pNext]

theorem pPrev_erase_of_ne {h : EventHeap} {a b : Addr} (hne : b ≠ a) :
    pPrev (h.erase a) b = pPrev h b := by
  rw [pPrev, Heap.erase_cell_of_ne _ hne, pPrev]

theorem eventAt_erase_of_ne {h : EventHeap} {a b : Addr} (hne : b ≠ a) :
    eventAt (h.erase a) b = eventAt h b := by
  rw [eventAt, Heap.erase_cell_of_ne _ hne, eventAt]

theorem n2aFreeEvent_eventAt {f : Fifo} {p : Option Addr} {b : Addr} (hne : p ≠ some b) :
    eventAt (n2aFreeEvent f p).heap b = eventAt f.heap b := by
  cases p with
  | none => rfl
  | some a => exact eventAt_erase_of_ne (fun h => hne (h ▸ rfl))

theorem n2aFreeEvent_sameFile (f : Fifo) (p : Option Addr) : f.SameFile (n2aFreeEvent f p) := by
  cases p <;> exact ⟨rfl, rfl, rfl, rfl⟩

theorem n2aFreeEvent_holds {f : Fifo} {q : List Addr} (h : f.Holds q) {p : Option Addr}
    (hp : ∀ a ∈ q, p ≠ some a) : (n2aFreeEvent f p).Holds q := by
  cases p with
  | none => exact h
  | some a =>
      have hne : ∀ b ∈ q, b ≠ a := fun b hb hba => hp b hb (hba ▸ rfl)
      refine ⟨fun hq => ?_, h.emptied, ?_, h.size, h.fits⟩
      · exact (h.linked hq).congr (fun b hb => pNext_erase_of_ne (hne b hb))
          (fun b hb => pPrev_erase_of_ne (hne b hb))
      · intro b hb
        rw [Live, n2aFreeEvent_eventAt (hp b hb)]
        exact h.live b hb

/-! ## n2a_push and n2a_prepend -/

open BoundedDeque (roomBehind roomBefore roomBehind_length roomBefore_length)

theorem Fifo.Holds.full_iff {f : Fifo} {q : List Addr} (h : f.Holds q) :
    (n2aCheckSize f).full = true ↔ ¬ q.length < f.maxSize.toNat := by
  rw [n2aCheckSize_eq]
  simp [UInt32.le_iff_toNat_le, h.size]

theorem Fifo.Holds.checkSize {f : Fifo} {q : List Addr} (h : f.Holds q) :
    (n2aCheckSize f).Holds q := by
  rw [n2aCheckSize_eq]
  exact ⟨h.linked, h.emptied, h.live, h.size, h.fits⟩

theorem n2aCheckSize_sameFile (f : Fifo) : f.SameFile (n2aCheckSize f) := by
  rw [n2aCheckSize_eq]
  exact ⟨rfl, rfl, rfl, rfl⟩

theorem n2aCheckSize_heap (f : Fifo) : (n2aCheckSize f).heap = f.heap := by
  rw [n2aCheckSize_eq]

theorem not_mem_of_nodup_concat {l : List Addr} {a : Addr} (h : (l ++ [a]).Nodup) : a ∉ l :=
  fun ha => (List.nodup_append.mp h).2.2 a ha a (by simp) rfl

namespace Fifo

theorem makeRoom_shift_holds {f : Fifo} {q : List Addr} (h : f.Holds q) :
    (f.makeRoom n2aShift).Holds (roomBehind f.maxSize.toNat q) := by
  unfold makeRoom roomBehind
  by_cases hroom : q.length < f.maxSize.toNat
  · have hfull : ¬ (n2aCheckSize f).full = true := fun hf => h.full_iff.mp hf hroom
    simpa [hfull, hroom] using h.checkSize
  · have hfull : (n2aCheckSize f).full = true := h.full_iff.mpr hroom
    simp only [hfull, if_true, hroom, if_false]
    apply n2aFreeEvent_holds (n2aShift_holds h.checkSize)
    -- the evicted front does not occur again behind itself
    intro a ha hp
    rw [n2aShift_fst, h.checkSize.first_eq] at hp
    cases q with
    | nil => cases hp
    | cons b l =>
        cases hp
        exact (List.nodup_cons.mp h.nodup).1 ha

theorem makeRoom_of_room {f : Fifo} {q : List Addr} (h : f.Holds q)
    (hroom : q.length < f.maxSize.toNat) (take : Fifo → Option Addr × Fifo) :
    f.makeRoom take = n2aCheckSize f := by
  have hfull : ¬ (n2aCheckSize f).full = true := fun hf => h.full_iff.mp hf hroom
  simp [makeRoom, hfull]

/-- Evicting the back leaves a well-formed queue unless it was the only event. -/
theorem makeRoom_pop_holds {f : Fifo} {q : List Addr} (h : f.Holds q)
    (hq : q.length < f.maxSize.toNat ∨ 1 < q.length) :
    (f.makeRoom n2aPop).Holds (roomBefore f.maxSize.toNat q) := by
  by_cases hroom : q.length < f.maxSize.toNat
  · rw [makeRoom_of_room h hroom]
    simpa [roomBefore, hroom] using h.checkSize
  · have hfull : (n2aCheckSize f).full = true := h.full_iff.mpr hroom
    simp only [makeRoom, hfull, if_true, roomBefore, hroom, if_false]
    obtain ⟨l, b, a, rfl⟩ : ∃ l b a, q = l ++ [b] ++ [a] := by
      rcases List.eq_nil_or_concat' q with rfl | ⟨q, a, rfl⟩
      · simp at hq hroom
        omega
      · rcases List.eq_nil_or_concat' q with rfl | ⟨l, b, rfl⟩
        · simp at hq hroom
          omega
        · exact ⟨l, b, a, rfl⟩
    rw [List.dropLast_concat]
    apply n2aFreeEvent_holds (n2aPop_holds h.checkSize)
    intro c hc hp
    have hlast : (n2aCheckSize f).last = some a := by
      simpa using (h.checkSize.linked (by simp)).last_eq
    have hca : c = a := by
      simpa [n2aPop, hlast] using hp.symm
    exact not_mem_of_nodup_concat h.nodup (hca ▸ hc)

end Fifo

theorem Loose.setNext_of_ne {h : EventHeap} {c : Addr} (hc : Loose h c) {p : Option Addr}
    (hp : p ≠ some c) (q : Option Addr) : Loose (setNext h p q) c := by
  refine ⟨by simpa using hc.live, ?_, by simpa using hc.noPrev⟩
  cases p with
  | none => simpa [setNext] using hc.noNext
  | some a => rw [pNext_setNext_of_ne _ (fun e => hp (by rw [e])), hc.noNext]

theorem Loose.setPrev_of_ne {h : EventHeap} {c : Addr} (hc : Loose h c) {p : Option Addr}
    (hp : p ≠ some c) (q : Option Addr) : Loose (setPrev h p q) c := by
  refine ⟨by simpa using hc.live, by simpa using hc.noNext, ?_⟩
  cases p with
  | none => simpa [setPrev] using hc.noPrev
  | some a => rw [pPrev_setPrev_of_ne _ (fun e => hp (by rw [e])), hc.noPrev]

theorem Loose.setNext_none {h : EventHeap} {c : Addr} (hc : Loose h c) (p : Option Addr) :
    Loose (setNext h p none) c := by
  by_cases hp : p = some c
  · refine ⟨by simpa using hc.live, ?_, by simpa using hc.noPrev⟩
    rw [hp]
    exact pNext_setNext_self _ hc.live
  · exact hc.setNext_of_ne hp none

theorem Loose.setPrev_none {h : EventHeap} {c : Addr} (hc : Loose h c) (p : Option Addr) :
    Loose (setPrev h p none) c := by
  by_cases hp : p = some c
  · refine ⟨by simpa using hc.live, by simpa using hc.noNext, ?_⟩
    rw [hp]
    exact pPrev_setPrev_self _ hc.live
  · exact hc.setPrev_of_ne hp none

theorem Loose.shift {f : Fifo} {c : Addr} (hc : Loose f.heap c) : Loose (n2aShift f).2.heap c := by
  unfold n2aShift
  cases hf : f.first with
  | none => exact hc
  | some a =>
      cases hn : pNext f.heap a with
      | none => simpa only [hn] using (hc.setNext_none _).setPrev_none _
      | some b => simpa only [hn] using ((hc.setPrev_none _).setNext_none _).setPrev_none _

theorem Loose.pop {f : Fifo} {c : Addr} (hc : Loose f.heap c) : Loose (n2aPop f).2.heap c := by
  unfold n2aPop
  cases hf : f.last with
  | none => exact hc
  | some a =>
      cases hn : pPrev f.heap a with
      | none => simpa only [hn] using (hc.setNext_none _).setPrev_none _
      | some b => simpa only [hn] using ((hc.setNext_none _).setNext_none _).setPrev_none _

theorem Loose.free {f : Fifo} {c : Addr} (hc : Loose f.heap c) {p : Option Addr}
    (hp : p ≠ some c) : Loose (n2aFreeEvent f p).heap c := by
  cases p with
  | none => exact hc
  | some a =>
      have hne : c ≠ a := fun e => hp (e ▸ rfl)
      refine ⟨?_, (pNext_erase_of_ne hne).trans hc.noNext, (pPrev_erase_of_ne hne).trans hc.noPrev⟩
      rw [Live, n2aFreeEvent_eventAt hp]
      exact hc.live

namespace Fifo

theorem makeRoom_loose {take : Fifo → Option Addr × Fifo} {f : Fifo} {c : Addr}
    (htake : ∀ {g : Fifo}, Loose g.heap c → Loose (take g).2.heap c) (hc : Loose f.heap c)
    (hfree : (take (n2aCheckSize f)).1 ≠ some c) : Loose (f.makeRoom take).heap c := by
  have hchecked : Loose (n2aCheckSize f).heap c := by rwa [n2aCheckSize_heap]
  unfold makeRoom
  dsimp only
  split
  · exact (htake hchecked).free hfree
  · exact hchecked

theorem makeRoom_sameFile {take : Fifo → Option Addr × Fifo}
    (htake : ∀ g : Fifo, g.SameFile (take g).2) (f : Fifo) : f.SameFile (f.makeRoom take) := by
  unfold makeRoom
  dsimp only
  split
  · exact ((n2aCheckSize_sameFile f).trans (htake _)).trans (n2aFreeEvent_sameFile _ _)
  · exact n2aCheckSize_sameFile f

theorem linkLast_loose {f : Fifo} {q : List Addr} {a c : Addr} (h : f.Holds q)
    (hc : Loose f.heap c) (hcq : c ∉ q) (hca : c ≠ a) :
    Loose (f.linkLast a).countOne.heap c := by
  have hpa : some a ≠ some c := fun e => hca (Option.some.inj e).symm
  unfold linkLast
  split
  · exact hc
  · rename_i b hb
    refine (hc.setPrev_of_ne hpa _).setNext_of_ne ?_ _
    have hne : q ≠ [] := fun hq => by simp [h.emptied hq] at hb
    rw [(h.linked hne).last_eq]
    exact fun hp => hcq (List.mem_of_mem_getLast? hp)

theorem linkFirst_loose {f : Fifo} {q : List Addr} {a c : Addr} (h : f.Holds q)
    (hc : Loose f.heap c) (hcq : c ∉ q) (hca : c ≠ a) :
    Loose (f.linkFirst a).countOne.heap c := by
  have hpa : some a ≠ some c := fun e => hca (Option.some.inj e).symm
  unfold linkFirst
  split
  · exact hc
  · rename_i b hb
    refine ((hc.setPrev_of_ne hpa _).setNext_of_ne hpa _).setPrev_of_ne ?_ _
    rw [← hb, h.first_eq]
    exact fun hp => hcq (List.mem_of_mem_head? hp)

theorem linkLast_sameFile (f : Fifo) (a : Addr) : f.SameFile (f.linkLast a).countOne := by
  unfold linkLast
  split <;> exact ⟨rfl, rfl, rfl, rfl⟩

theorem linkFirst_sameFile (f : Fifo) (a : Addr) : f.SameFile (f.linkFirst a).countOne := by
  unfold linkFirst
  split <;> exact ⟨rfl, rfl, rfl, rfl⟩

theorem linkLast_eventAt (f : Fifo) (a : Addr) :
    eventAt (f.linkLast a).countOne.heap = eventAt f.heap := by
  funext b
  unfold linkLast
  split <;> simp [countOne]

theorem linkFirst_eventAt (f : Fifo) (a : Addr) :
    eventAt (f.linkFirst a).countOne.heap = eventAt f.heap := by
  funext b
  unfold linkFirst
  split <;> simp [countOne]

theorem linkLast_holds {f : Fifo} {q : List Addr} {a : Addr} (h : f.Holds q)
    (hroom : q.length < f.maxSize.toNat) (ha : Loose f.heap a) (haq : a ∉ q) :
    (f.linkLast a).countOne.Holds (q ++ [a]) ∧ (f.linkLast a).last = some a := by
  have hsize : (f.size + 1).toNat = (q ++ [a]).length := by
    have hmax := f.maxSize.toNat_lt
    simpa using size_succ h.size (by omega)
  have hfits : (q ++ [a]).length ≤ f.maxSize.toNat := by
    rw [List.length_append, List.length_singleton]
    exact hroom
  have hlive : ∀ b ∈ q ++ [a], Live f.heap b := by
    intro b hb
    rcases List.mem_append.mp hb with hb | hb
    · exact h.live b hb
    · rw [List.mem_singleton.mp hb]
      exact ha.live
  rcases List.eq_nil_or_concat' q with rfl | ⟨l, z, rfl⟩
  · have hfirst : f.first = none := h.emptied rfl
    simp only [linkLast, hfirst, countOne]
    exact ⟨⟨fun _ => .singleton ha.noNext ha.noPrev, fun hnil => absurd hnil (by simp),
      hlive, hsize, hfits⟩, trivial⟩
  · have hq := h.linked (by simp)
    have hlast : f.last = some z := by simpa using hq.last_eq
    obtain ⟨b, hfirst⟩ : ∃ b, f.first = some b := by
      rw [h.first_eq]
      cases l <;> exact ⟨_, rfl⟩
    have hza : z ≠ a := by
      rintro rfl
      simp at haq
    have hzl : z ∉ l := not_mem_of_nodup_concat h.nodup
    have hlink : Linked (pNext (setNext (setPrev f.heap (some a) (some z)) (some z) (some a)))
        (pPrev (setNext (setPrev f.heap (some a) (some z)) (some z) (some a)))
        f.first (some a) (l ++ [z] ++ [a]) := by
      refine (hlast ▸ hq).append haq ?_ ?_ ?_ ?_ ?_
      · exact pNext_setNext_self _ (by simpa using h.live z (by simp))
      · rw [pNext_setNext_of_ne _ (Ne.symm hza), pNext_setPrev, ha.noNext]
      · rw [pPrev_setNext]
        exact pPrev_setPrev_self _ ha.live
      · intro c hc
        have hcz : c ≠ z := fun e => hzl (e ▸ hc)
        rw [pNext_setNext_of_ne _ hcz, pNext_setPrev]
      · intro c hc
        have hca : c ≠ a := fun e => haq (e ▸ hc)
        rw [pPrev_setNext, pPrev_setPrev_of_ne _ hca]
    simp only [linkLast, hfirst, hlast, countOne]
    rw [hfirst] at hlink
    exact ⟨⟨fun _ => hlink, fun hnil => absurd hnil (by simp),
      fun c hc => by simpa using hlive c hc, hsize, hfits⟩, trivial⟩

theorem linkFirst_holds {f : Fifo} {q : List Addr} {a : Addr} (h : f.Holds q)
    (hroom : q.length < f.maxSize.toNat) (ha : Loose f.heap a) (haq : a ∉ q) :
    (f.linkFirst a).countOne.Holds (a :: q) := by
  have hsize : (f.size + 1).toNat = (a :: q).length := by
    have hmax := f.maxSize.toNat_lt
    exact size_succ h.size (by omega)
  have hlive : ∀ b ∈ a :: q, Live f.heap b := by
    intro b hb
    rcases List.mem_cons.mp hb with rfl | hb
    · exact ha.live
    · exact h.live b hb
  cases q with
  | nil =>
      have hfirst : f.first = none := h.emptied rfl
      simp only [linkFirst, hfirst, countOne]
      exact ⟨fun _ => .singleton ha.noNext ha.noPrev, fun hnil => absurd hnil (by simp),
        hlive, hsize, hroom⟩
  | cons b l =>
      have hq := h.linked (by simp)
      have hfirst : f.first = some b := hq.forward.1
      have hba : b ≠ a := by
        rintro rfl
        simp at haq
      have hbl : b ∉ l := (List.nodup_cons.mp h.nodup).1
      have hm : Linked (pPrev f.heap) (pNext f.heap) f.last (some b) (l.reverse ++ [b]) := by
        have hm := hq.mirror
        rwa [hfirst, List.reverse_cons] at hm
      have hmem : ∀ c, c ∈ l.reverse ++ [b] → c ≠ a := by
        rintro c hc rfl
        exact haq (by simpa [or_comm] using hc)
      have hlink : Linked
          (pPrev (setPrev (setNext (setPrev f.heap (some a) none) (some a) (some b)) (some b) (some a)))
          (pNext (setPrev (setNext (setPrev f.heap (some a) none) (some a) (some b)) (some b) (some a)))
          f.last (some a) (l.reverse ++ [b] ++ [a]) := by
        refine hm.append (fun hmem' => hmem a hmem' rfl) ?_ ?_ ?_ ?_ ?_
        · exact pPrev_setPrev_self _ (by simpa using h.live b (by simp))
        · rw [pPrev_setPrev_of_ne _ (Ne.symm hba), pPrev_setNext]
          exact pPrev_setPrev_self _ ha.live
        · rw [pNext_setPrev]
          exact pNext_setNext_self _ (by simpa using ha.live)
        · intro c hc
          have hcb : c ≠ b := fun e => hbl (by simpa [e] using hc)
          have hca : c ≠ a := hmem c (List.mem_append_left [b] hc)
          rw [pPrev_setPrev_of_ne _ hcb, pPrev_setNext, pPrev_setPrev_of_ne _ hca]
        · intro c hc
          rw [pNext_setPrev, pNext_setNext_of_ne _ (hmem c hc), pNext_setPrev]
      simp only [linkFirst, hfirst, countOne]
      refine ⟨fun _ => by simpa using hlink.mirror, fun hnil => absurd hnil (by simp),
        fun c hc => by simpa using hlive c hc, hsize, hroom⟩

end Fifo

theorem n2aPush_sameFile (f : Fifo) (a : Addr) : f.SameFile (n2aPush f a).2 :=
  (Fifo.makeRoom_sameFile n2aShift_sameFile f).trans (Fifo.linkLast_sameFile _ a)

theorem n2aPrepend_sameFile (f : Fifo) (a : Addr) : f.SameFile (n2aPrepend f a).2 :=
  (Fifo.makeRoom_sameFile n2aPop_sameFile f).trans (Fifo.linkFirst_sameFile _ a)

theorem mem_of_mem_roomBehind {cap : Nat} {q : List Addr} {a : Addr}
    (h : a ∈ roomBehind cap q) : a ∈ q := by
  unfold roomBehind at h
  split at h
  · exact h
  · exact List.mem_of_mem_tail h

theorem mem_of_mem_roomBefore {cap : Nat} {q : List Addr} {a : Addr}
    (h : a ∈ roomBefore cap q) : a ∈ q := by
  unfold roomBefore at h
  split at h
  · exact h
  · exact List.mem_of_mem_dropLast h

/-- `n2a_push` behaves as the bounded deque does, whatever `last` was before. -/
theorem n2aPush_holds {f : Fifo} {q : List Addr} {a : Addr} (h : f.Holds q)
    (hpos : 0 < f.maxSize.toNat) (ha : Loose f.heap a) (haq : a ∉ q) :
    (n2aPush f a).2.Holds (roomBehind f.maxSize.toNat q ++ [a]) ∧
      (n2aPush f a).2.last = some a := by
  have hroom := Fifo.makeRoom_shift_holds h
  have hfree : (n2aShift (n2aCheckSize f)).1 ≠ some a := by
    rw [n2aShift_fst, h.checkSize.first_eq]
    exact fun hp => haq (List.mem_of_mem_head? hp)
  refine Fifo.linkLast_holds hroom ?_ (Fifo.makeRoom_loose Loose.shift ha hfree)
    (fun hmem => haq (mem_of_mem_roomBehind hmem))
  rw [(Fifo.makeRoom_sameFile n2aShift_sameFile f).maxSize]
  exact roomBehind_length hpos h.fits

theorem n2aPop_fst (f : Fifo) : (n2aPop f).1 = f.last := by
  unfold n2aPop
  cases f.last <;> rfl

theorem makeRoom_pop_loose {f : Fifo} {q : List Addr} {c : Addr} (h : f.Holds q)
    (hpos : 0 < f.maxSize.toNat) (hc : Loose f.heap c) (hcq : c ∉ q) :
    Loose (f.makeRoom n2aPop).heap c := by
  by_cases hroom : q.length < f.maxSize.toNat
  · rw [Fifo.makeRoom_of_room h hroom, n2aCheckSize_heap]
    exact hc
  · apply Fifo.makeRoom_loose Loose.pop hc
    have hne : q ≠ [] := by
      rintro rfl
      exact hroom hpos
    rw [n2aPop_fst, (h.checkSize.linked hne).last_eq]
    exact fun hp => hcq (List.mem_of_mem_getLast? hp)

/-- So does `n2a_prepend`, unless it evicts the only event. -/
theorem n2aPrepend_holds {f : Fifo} {q : List Addr} {a : Addr} (h : f.Holds q)
    (hpos : 0 < f.maxSize.toNat) (hq : q.length < f.maxSize.toNat ∨ 1 < q.length)
    (ha : Loose f.heap a) (haq : a ∉ q) :
    (n2aPrepend f a).2.Holds (a :: roomBefore f.maxSize.toNat q) := by
  have hroom := Fifo.makeRoom_pop_holds h hq
  refine Fifo.linkFirst_holds hroom ?_ (makeRoom_pop_loose h hpos ha haq)
    (fun hmem => haq (mem_of_mem_roomBefore hmem))
  rw [(Fifo.makeRoom_sameFile n2aPop_sameFile f).maxSize]
  exact roomBefore_length hpos h.fits

theorem n2aPrepend_loose {f : Fifo} {q : List Addr} {a c : Addr} (h : f.Holds q)
    (hpos : 0 < f.maxSize.toNat) (hq : q.length < f.maxSize.toNat ∨ 1 < q.length)
    (hc : Loose f.heap c) (hcq : c ∉ q) (hca : c ≠ a) : Loose (n2aPrepend f a).2.heap c :=
  Fifo.linkFirst_loose (Fifo.makeRoom_pop_holds h hq) (makeRoom_pop_loose h hpos hc hcq)
    (fun hmem => hcq (mem_of_mem_roomBefore hmem)) hca

theorem n2aPush_loose {f : Fifo} {q : List Addr} {a c : Addr} (h : f.Holds q)
    (hc : Loose f.heap c) (hcq : c ∉ q) (hca : c ≠ a) : Loose (n2aPush f a).2.heap c := by
  refine Fifo.linkLast_loose (Fifo.makeRoom_shift_holds h) (Fifo.makeRoom_loose Loose.shift hc ?_)
    (fun hmem => hcq (mem_of_mem_roomBehind hmem)) hca
  rw [n2aShift_fst, h.checkSize.first_eq]
  exact fun hp => hcq (List.mem_of_mem_head? hp)

/-! ## New events -/

theorem n2aEventInit_fresh {f : Fifo} {b : Addr} (hb : Live f.heap b) (m : Malloc EventNode)
    (rk msg : CString) : b ≠ (n2aEventInit m f rk msg).1 := by
  rintro rfl
  have hdead := m.fresh f.heap
  simp [Live, eventAt, n2aEventInit, n2aEventInitNomalloc, hdead] at hb

theorem n2aEventInit_cell {f : Fifo} {b : Addr} (hb : Live f.heap b) (m : Malloc EventNode)
    (rk msg : CString) : (n2aEventInit m f rk msg).2.heap.cell b = f.heap.cell b :=
  Heap.insert_cell_of_ne _ _ (n2aEventInit_fresh hb m rk msg)

theorem n2aEventInit_loose (m : Malloc EventNode) (f : Fifo) (rk msg : CString) :
    Loose (n2aEventInit m f rk msg).2.heap (n2aEventInit m f rk msg).1 := by
  constructor <;> simp [n2aEventInit, n2aEventInitNomalloc, Live, eventAt, pNext, pPrev]

theorem n2aEventInit_eventAt_self (m : Malloc EventNode) (f : Fifo) (rk msg : CString) :
    eventAt (n2aEventInit m f rk msg).2.heap (n2aEventInit m f rk msg).1 = some ⟨rk, msg⟩ := by
  simp [n2aEventInit, n2aEventInitNomalloc, eventAt, EventNode.event]

theorem n2aEventInit_eventAt {f : Fifo} {b : Addr} (hb : Live f.heap b) (m : Malloc EventNode)
    (rk msg : CString) : eventAt (n2aEventInit m f rk msg).2.heap b = eventAt f.heap b := by
  rw [eventAt, n2aEventInit_cell hb, eventAt]

theorem n2aEventInit_holds {f : Fifo} {q : List Addr} (h : f.Holds q) (m : Malloc EventNode)
    (rk msg : CString) : (n2aEventInit m f rk msg).2.Holds q := by
  have hcell : ∀ b ∈ q, (n2aEventInit m f rk msg).2.heap.cell b = f.heap.cell b :=
    fun b hb => n2aEventInit_cell (h.live b hb) m rk msg
  refine ⟨fun hq => ?_, h.emptied, ?_, h.size, h.fits⟩
  · exact (h.linked hq).congr (fun b hb => by rw [pNext, hcell b hb, pNext])
      (fun b hb => by rw [pPrev, hcell b hb, pPrev])
  · intro b hb
    rw [Live, n2aEventInit_eventAt (h.live b hb)]
    exact h.live b hb

theorem n2aEventInit_loose_of_loose {f : Fifo} {c : Addr} (hc : Loose f.heap c)
    (m : Malloc EventNode) (rk msg : CString) : Loose (n2aEventInit m f rk msg).2.heap c := by
  have hcell := n2aEventInit_cell hc.live m rk msg
  refine ⟨?_, ?_, ?_⟩
  · rw [Live, n2aEventInit_eventAt hc.live]
    exact hc.live
  · rw [pNext, hcell, ← hc.noNext, pNext]
  · rw [pPrev, hcell, ← hc.noPrev, pPrev]

theorem n2aEventInit_sameFile (m : Malloc EventNode) (f : Fifo) (rk msg : CString) :
    f.SameFile (n2aEventInit m f rk msg).2 := ⟨rfl, rfl, rfl, rfl⟩

end Neb2Amqp
