import Neb2Amqp.Amqp.Session
import Neb2Amqp.Fifo.CacheFile

/-!
# The module at work

`n2a_fifo_check` and `n2a_send_event` over the session and the queue, and runs
of the four operations the rest of the module calls.
-/

namespace Neb2Amqp

open CLib

structure State where
  amqp : Session
  fifoLastSync : Int32
  pFifo : Fifo

/-- The module as loaded, with this queue. -/
def State.loaded (f : Fifo) : State := ⟨.loaded, 0, f⟩

/-- Everything outside the module: the broker with the clock, the file system
and the allocator. -/
structure Env where
  broker : Broker
  file : FileEnv
  malloc : Malloc EventNode

/-- Everything works, and the clock stands at 1000 s. -/
def Env.reliable : Env where
  broker :=
    { gettimeofday := fun _ => 1000
      socketOpen := fun _ => 0
      login := fun _ => .normal
      getRpcReply := fun _ => .normal
      channelClose := fun _ => .normal
      connectionClose := fun _ => .normal
      destroyConnection := fun _ => 0
      basicPublish := fun _ => 0 }
  file := .reliable
  malloc := Heap.bump

/-- The texts of an event. A pointer to freed memory, which the code never
follows as long as the queue is well formed, is read as two empty texts. -/
def eventOf (f : Fifo) (pEvent : Addr) : Event :=
  (eventAt f.heap pEvent).getD ⟨.ofBytes [], .ofBytes []⟩

/-- How many events a flush round may take. -/
def flushQuota (o : Options) : Int32 :=
  if o.flush = -1 then
    let flush := o.cacheSize / 5
    if flush > 1000 then 1000 else flush
  else o.flush

/-- The `for` loop of `n2a_fifo_check`, with the number of rounds left. -/
def flushLoop (o : Options) (w : Env) : Nat → State → State
  | 0, s => s
  | left + 1, s =>
      match n2aShift s.pFifo with
      | (none, f) => { s with pFifo := f }
      | (some pEvent, f) =>
          let (ok, amqp) := n2aAmqpPublish o w.broker (eventOf f pEvent) s.amqp
          if !ok then { s with amqp := amqp, pFifo := (n2aPrepend f pEvent).2 }
          else flushLoop o w left { s with amqp := amqp, pFifo := n2aFreeEvent f (some pEvent) }

/-- The first half of `n2a_fifo_check`. -/
def flushQueue (o : Options) (w : Env) (timestamp : Int32) (s : State) : State :=
  let elapsed := timestamp - s.amqp.fifoLastFlush
  if s.amqp.amqpConnected ∧ s.pFifo.size > 0 ∧ elapsed ≥ o.flushInterval then
    let s := { s with amqp := s.amqp.call (.flushRound timestamp) }
    let s := flushLoop o w (flushQuota o).toInt.toNat s
    { s with amqp := { s.amqp with fifoLastFlush := timestamp } }
  else s

/-- The second half. -/
def saveQueue (o : Options) (w : Env) (timestamp : Int32) (s : State) : State :=
  let elapsed := timestamp - s.fifoLastSync
  if elapsed ≥ o.autosync then
    { s with
      amqp := s.amqp.call (.csync timestamp)
      pFifo := (n2aCsync w.file s.pFifo).2
      fifoLastSync := timestamp }
  else s

def n2aFifoCheck (o : Options) (w : Env) (s : State) : State :=
  let (tvSec, amqp) := gettimeofday w.broker s.amqp
  let timestamp := tvSec.toInt32
  saveQueue o w timestamp (flushQueue o w timestamp { s with amqp := amqp })

/-- `n2a_push (pFifo, n2a_event_init (routingkey, message))`. -/
def pushEvent (w : Env) (ev : Event) (s : State) : Int32 × State :=
  let amqp := s.amqp.call (.push s.pFifo.events ev (n2aCheckSize s.pFifo).full)
  let (size, f) := enqueue w.malloc s.pFifo ev
  (size, { s with amqp := amqp, pFifo := f })

def n2aSendEvent (o : Options) (w : Env) (ev : Event) (s : State) : Int32 × State :=
  let (amqpState, amqp) := n2aAmqpCheck o w.broker s.amqp
  let s := n2aFifoCheck o w { s with amqp := amqp }
  if amqpState ∧ s.pFifo.size = 0 then
    let (ok, amqp) := n2aAmqpPublish o w.broker ev s.amqp
    if !ok then (-1, (pushEvent w ev { s with amqp := amqp }).2)
    else (0, { s with amqp := amqp })
  else pushEvent w ev s

/-! ## Runs -/

inductive Op
  | sendEvent (ev : Event)
  | amqpCheck
  | toggleBlackout
  | amqpDisconnect

def State.step (o : Options) (w : Env) (s : State) : Op → State
  | .sendEvent ev => (n2aSendEvent o w ev s).2
  | .amqpCheck => { s with amqp := (n2aAmqpCheck o w.broker s.amqp).2 }
  | .toggleBlackout => { s with amqp := (n2aToggleBlackout w.broker s.amqp).2 }
  | .amqpDisconnect => { s with amqp := n2aAmqpDisconnect w.broker s.amqp }

def State.run (o : Options) (w : Env) (s : State) (ops : List Op) : State :=
  ops.foldl (State.step o w) s

/-- The events handed to `n2a_send_event`, in call order. -/
def sentEvents (ops : List Op) : List Event :=
  ops.filterMap fun
    | .sendEvent ev => some ev
    | _ => none

end Neb2Amqp
