import Mathlib.Data.List.Basic

/-!
# A bounded outbox

Messages are accepted at the back and settled at the front, each with a fate.
Settling never changes the stream of all messages, so nothing is lost, repeated
or overtaken as long as a component only accepts and settles.
-/

namespace CLib

inductive Fate
  | delivered
  | evicted
  deriving DecidableEq

structure Outbox (α : Type) where
  settled : List (α × Fate)
  queue : List α

namespace Outbox

variable {α : Type}

def start (q : List α) : Outbox α := ⟨[], q⟩

def accept (a : α) (b : Outbox α) : Outbox α := ⟨b.settled, b.queue ++ [a]⟩

/-- The oldest message meets its fate. -/
def settle (fate : Fate) (b : Outbox α) : Outbox α :=
  match b.queue with
  | [] => b
  | a :: q => ⟨b.settled ++ [(a, fate)], q⟩

/-- Every message ever accepted, oldest first. -/
def stream (b : Outbox α) : List α := b.settled.map Prod.fst ++ b.queue

/-- The settled messages that met this fate, in order. -/
def withFate (fate : Fate) (b : Outbox α) : List α :=
  (b.settled.filter fun p => p.2 = fate).map Prod.fst

@[simp] theorem stream_start (q : List α) : (start q).stream = q := rfl

@[simp] theorem stream_accept (a : α) (b : Outbox α) : (b.accept a).stream = b.stream ++ [a] := by
  simp [stream, accept]

@[simp] theorem stream_settle (fate : Fate) (b : Outbox α) : (b.settle fate).stream = b.stream := by
  unfold stream settle
  cases hq : b.queue <;> simp [hq]

@[simp] theorem withFate_accept (fate : Fate) (a : α) (b : Outbox α) :
    (b.accept a).withFate fate = b.withFate fate := rfl

theorem withFate_settle (fate fate' : Fate) (b : Outbox α) :
    (b.settle fate').withFate fate =
      b.withFate fate ++ if fate' = fate then b.queue.head?.toList else [] := by
  unfold withFate settle
  cases hq : b.queue with
  | nil => simp
  | cons a q => by_cases h : fate' = fate <;> simp [h]

/-- What was delivered and what waits is the stream without the evicted messages. -/
theorem delivered_queue_sublist (b : Outbox α) :
    (b.withFate .delivered ++ b.queue).Sublist b.stream :=
  ((List.filter_sublist (l := b.settled)).map Prod.fst).append (List.Sublist.refl b.queue)

theorem delivered_queue_eq {b : Outbox α} (h : b.withFate .evicted = []) :
    b.withFate .delivered ++ b.queue = b.stream := by
  have hall : ∀ p ∈ b.settled, p.2 = .delivered := by
    intro p hp
    cases hfate : p.2 with
    | delivered => rfl
    | evicted =>
        have hmem : p.1 ∈ b.withFate .evicted :=
          List.mem_map_of_mem (List.mem_filter.mpr ⟨hp, by simpa using hfate⟩)
        rw [h] at hmem
        cases hmem
  have hkept : b.settled.filter (fun p => p.2 = Fate.delivered) = b.settled :=
    List.filter_eq_self.mpr (fun p hp => by simpa using hall p hp)
  rw [withFate, hkept, stream]

end Outbox

end CLib
