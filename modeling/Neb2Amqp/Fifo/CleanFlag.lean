import Neb2Amqp.Fifo.Csync
import Neb2Amqp.Library.Run

/-!
# The clean flag

Runs of queue operations and saves, and when `dirty = false` means that the
file holds the queue.
-/

namespace Neb2Amqp

open CLib

/-- A queue in use, and whether a save has gone through to its end yet. -/
structure Saving where
  fifo : Fifo
  saved : Bool

/-- How events come and go: queued, taken off and published, taken off and put
back because publishing failed. -/
inductive SaveOp
  | push (ev : Event)
  | publish
  | giveBack
  | csync

namespace Saving

def step (e : FileEnv) (m : Malloc EventNode) (s : Saving) : SaveOp → Option Saving
  | .push ev => some { s with fifo := (enqueue m s.fifo ev).2 }
  | .publish =>
      let (pEvent, f) := n2aShift s.fifo
      some { s with fifo := n2aFreeEvent f pEvent }
  | .giveBack =>
      let (pEvent, f) := n2aShift s.fifo
      some { s with fifo := pEvent.elim f fun a => (n2aPrepend f a).2 }
  | .csync =>
      let f := (n2aCsync e s.fifo).2
      some ⟨f, s.saved || (s.fifo.dirty && !f.dirty)⟩

/-- The flag is right: the file holds the events and nothing else. -/
def Truthful (s : Saving) : Prop :=
  s.saved = true → s.fifo.dirty = false → s.fifo.disk.content = some (serialize s.fifo.events)

def SyncsWell (e : FileEnv) (s : Saving) : SaveOp → Prop
  | .csync => s.fifo.SavesWell e
  | _ => True

instance (e : FileEnv) (s : Saving) : ∀ op, Decidable (SyncsWell e s op)
  | .csync => inferInstanceAs (Decidable (s.fifo.SavesWell e))
  | .push _ | .publish | .giveBack => isTrue trivial

structure Inv (s : Saving) : Prop where
  unlocked : s.fifo.fileLock = false
  settled : s.fifo.Settled
  truthful : s.Truthful

/-- The queue operations leave the file alone and set the flag whenever they
change the queue. -/
theorem Inv.of_sameFile {s : Saving} {f : Fifo} (h : s.Inv) (hsame : s.fifo.SameFile f)
    (hdirty : f.dirty = true ∨ f = s.fifo) : Inv { s with fifo := f } := by
  refine ⟨hsame.fileLock.trans h.unlocked, fun st hst => ?_, fun hsaved hclean => ?_⟩
  · exact h.settled st (hsame.pFile ▸ hst)
  · rcases hdirty with hd | hf
    · exact absurd (hd.symm.trans hclean) (by simp)
    · change f.disk.content = some (serialize f.events)
      rw [hf] at hclean ⊢
      exact h.truthful hsaved hclean

theorem step_inv {e : FileEnv} {m : Malloc EventNode} (s : Saving) (op : SaveOp) (s' : Saving)
    (hinv : s.Inv) (hwell : s.SyncsWell e op) (hstep : step e m s op = some s') : s'.Inv := by
  cases op with
  | push ev =>
      simp only [step, Option.some.injEq] at hstep
      subst hstep
      exact hinv.of_sameFile (enqueue_sameFile m s.fifo ev) (Or.inl (enqueue_dirty m s.fifo ev))
  | publish =>
      simp only [step, n2aShift_fst, Option.some.injEq] at hstep
      subst hstep
      apply hinv.of_sameFile ((n2aShift_sameFile s.fifo).trans (n2aFreeEvent_sameFile _ _))
      cases hfirst : s.fifo.first with
      | none => exact Or.inr (by rw [n2aShift_of_none hfirst]; rfl)
      | some a => exact Or.inl (n2aShift_dirty hfirst)
  | giveBack =>
      simp only [step, n2aShift_fst, Option.some.injEq] at hstep
      subst hstep
      cases hfirst : s.fifo.first with
      | none =>
          rw [n2aShift_of_none hfirst]
          exact hinv
      | some a =>
          exact hinv.of_sameFile ((n2aShift_sameFile s.fifo).trans (n2aPrepend_sameFile _ a))
            (Or.inl rfl)
  | csync =>
      simp only [step, Option.some.injEq] at hstep
      subst hstep
      cases hdirty : s.fifo.dirty with
      | false =>
          have hsync : (n2aCsync e s.fifo).2 = s.fifo := by simp [n2aCsync, hdirty]
          rw [hsync, Bool.false_and, Bool.or_false]
          exact hinv
      | true =>
          by_cases hopens : s.fifo.Opens e
          · obtain ⟨hqueue, -, hlock, hsettled, hcontent⟩ := n2aCsync_of_savesWell hdirty
              hinv.unlocked hinv.settled hopens hwell
            refine ⟨hlock, hsettled, fun _ _ => ?_⟩
            rw [hcontent, hqueue.events]
          · obtain ⟨-, -, hd, hlock, hsettled, -⟩ :=
              n2aCsync_of_not_opens hdirty hinv.unlocked hopens
            exact ⟨hlock, hsettled, fun _ hclean => absurd (hd.symm.trans hclean) (by simp)⟩

theorem inv_of_init {e : FileEnv} {m : Malloc EventNode} {stack : Bytes × Bytes} {fuel : Nat}
    {maxSize : Int32} {disk : Disk} {f : Fifo}
    (hinit : n2aFifoInit e m stack fuel maxSize disk = some f) : Inv ⟨f, false⟩ := by
  obtain ⟨hclosed, hlock⟩ := n2aFifoInit_closed hinit
  exact ⟨hlock, fun _ hst => absurd (hclosed.symm.trans hst) (by simp),
    fun h => nomatch h⟩

/-- As long as every save goes well the clean flag tells the truth. -/
theorem run_truthful (e : FileEnv) (m : Malloc EventNode) (stack : Bytes × Bytes) (fuel : Nat)
    (maxSize : Int32) (disk : Disk) (f : Fifo)
    (hinit : n2aFifoInit e m stack fuel maxSize disk = some f) (ops : List SaveOp)
    (hwell : Each (step e m) (SyncsWell e) ⟨f, false⟩ ops) :
    Always (step e m) Truthful ⟨f, false⟩ ops :=
  (always_of_each step_inv (inv_of_init hinit) hwell).mono fun _ h => h.truthful

/-- The file the runs below start with: one event. -/
def oneEventFile : Disk := ⟨some [107, 10, 109, 10], []⟩

theorem run_truthful_push_csync :
    Always (step .reliable Heap.bump) Truthful
      ⟨(n2aFifoInit .reliable Heap.bump ([], []) 4 5 oneEventFile).get (by decide +kernel), false⟩
      [.push ⟨.lit "a", .lit "b"⟩, .csync, .publish, .csync] :=
  run_truthful _ _ _ _ _ _ _ (Option.some_get _).symm _ (by decide +kernel)

/-- On a full disk no event reaches the file, which is then taken for up to date. -/
theorem full_disk_untruthful :
    ¬ Always (step { FileEnv.reliable with fprintf := fun _ => ⟨false, 0, 0⟩ } Heap.bump) Truthful
      ⟨(n2aFifoInit { FileEnv.reliable with fprintf := fun _ => ⟨false, 0, 0⟩ } Heap.bump
        ([], []) 4 5 oneEventFile).get (by decide +kernel), false⟩ [.csync] := by
  intro h
  have htrue := (h _ rfl).1 (by decide +kernel) (by decide +kernel)
  revert htrue
  decide +kernel

end Saving

end Neb2Amqp
