import Neb2Amqp.Options
import Neb2Amqp.Fifo.Queue

/-!
# The broker session of neb2amqp.c

The static variables around the connection and the functions that open, check,
use and close it. The AMQP library and the clock answer as the environment
chooses; every call is logged, and the place of a call in the log decides which
answer it gets.
-/

namespace Neb2Amqp

open CLib

/-- `reply_type` of an `amqp_rpc_reply_t`. -/
inductive ReplyType
  | normal
  | none
  | libraryException
  | serverException
  deriving DecidableEq

/-- The answers to the calls, by the number of entries logged before. -/
structure Broker where
  gettimeofday : Nat → Int64
  socketOpen : Nat → Int32
  login : Nat → ReplyType
  getRpcReply : Nat → ReplyType
  channelClose : Nat → ReplyType
  connectionClose : Nat → ReplyType
  destroyConnection : Nat → Int32
  basicPublish : Nat → Int32

/-- A connection object, named by the place of the call that made it. -/
abbrev Connection := Nat

/-- What the module does, in order. The last five entries are no calls out of the
module: they note how `n2a_amqp_publish` came out (`attempt` is what
`amqp_basic_publish` returned, if it was called), which events were queued when
`n2a_push` was called and whether it found the queue full, and when a flush
round and a save began. -/
inductive Call
  | gettimeofday (tvSec : Int64)
  | newConnection (conn : Connection)
  | socketOpen (conn : Option Connection) (hostname : Option CString) (port : Int32)
      (status : Int32)
  | login (conn : Option Connection) (virtualHost userid password : Option CString)
      (reply : ReplyType)
  | channelOpen (conn : Option Connection)
  | exchangeDeclare (conn : Option Connection) (exchangeName exchangeType : Option CString)
  | getRpcReply (conn : Option Connection) (reply : ReplyType)
  | channelClose (conn : Option Connection) (reply : ReplyType)
  | connectionClose (conn : Option Connection) (reply : ReplyType)
  | destroyConnection (conn : Option Connection) (status : Int32)
  | basicPublish (conn : Option Connection) (exchangeName : Option CString) (event : Event)
      (blackout : Bool) (status : Int32)
  | published (attempt : Option Int32) (result : Bool)
  | push (queued : List Event) (event : Event) (full : Bool)
  | flushRound (timestamp : Int32)
  | csync (timestamp : Int32)

/-- The static variables that the functions of this file read and write. -/
structure Session where
  amqpErrors : Bool
  amqpLastConnect : Int32
  fifoLastFlush : Int32
  amqpConnected : Bool
  blackout : Bool
  conn : Option Connection
  log : List Call

/-- Their values when the module is loaded. -/
def Session.loaded : Session := ⟨false, 0, 0, false, false, none, []⟩

def Session.call (s : Session) (c : Call) : Session := { s with log := s.log ++ [c] }

/-! ## Library calls -/

def gettimeofday (b : Broker) (s : Session) : Int64 × Session :=
  let tvSec := b.gettimeofday s.log.length
  (tvSec, s.call (.gettimeofday tvSec))

/-- The new object is taken to be non-NULL. -/
def amqpNewConnection (s : Session) : Connection × Session :=
  (s.log.length, s.call (.newConnection s.log.length))

def amqpSocketOpenNoblock (o : Options) (b : Broker) (s : Session) : Int32 × Session :=
  let x := b.socketOpen s.log.length
  (x, s.call (.socketOpen s.conn o.hostname o.port x))

def amqpLogin (o : Options) (b : Broker) (s : Session) : ReplyType × Session :=
  let x := b.login s.log.length
  (x, s.call (.login s.conn o.virtualHost o.userid o.password x))

def amqpChannelOpen (s : Session) : Session := s.call (.channelOpen s.conn)

def amqpExchangeDeclare (o : Options) (s : Session) : Session :=
  s.call (.exchangeDeclare s.conn o.exchangeName o.exchangeType)

def amqpGetRpcReply (b : Broker) (s : Session) : ReplyType × Session :=
  let x := b.getRpcReply s.log.length
  (x, s.call (.getRpcReply s.conn x))

def amqpChannelClose (b : Broker) (s : Session) : ReplyType × Session :=
  let x := b.channelClose s.log.length
  (x, s.call (.channelClose s.conn x))

def amqpConnectionClose (b : Broker) (s : Session) : ReplyType × Session :=
  let x := b.connectionClose s.log.length
  (x, s.call (.connectionClose s.conn x))

def amqpDestroyConnection (b : Broker) (s : Session) : Int32 × Session :=
  let x := b.destroyConnection s.log.length
  (x, s.call (.destroyConnection s.conn x))

def amqpBasicPublish (o : Options) (b : Broker) (ev : Event) (s : Session) : Int32 × Session :=
  let x := b.basicPublish s.log.length
  (x, s.call (.basicPublish s.conn o.exchangeName ev s.blackout x))

/-! ## Source functions -/

def n2aOnError (r : Int32 × Session) : Session :=
  if r.1 < 0 then { r.2 with amqpErrors := true } else r.2

def n2aOnAmqpError (r : ReplyType × Session) : Session :=
  match r.1 with
  | .normal => r.2
  | .none | .libraryException | .serverException => { r.2 with amqpErrors := true }

/-- What comes of closing an old connection is not looked at. -/
def Session.closeOld (b : Broker) (s : Session) : Session :=
  match s.conn with
  | some _ =>
      let s := (amqpChannelClose b s).2
      let s := (amqpConnectionClose b s).2
      (amqpDestroyConnection b s).2
  | none => s

/-- The first part of `n2a_amqp_connect`, up to the new connection object. -/
def Session.renewed (b : Broker) (s : Session) : Session :=
  let (tvSec, s) := gettimeofday b { s with amqpErrors := false }
  let s := Session.closeOld b { s with amqpLastConnect := tvSec.toInt32 }
  let (conn, s) := amqpNewConnection s
  { s with conn := some conn }

/-- `if (!amqp_errors)` in front of a request. -/
def Session.unlessErrors (s : Session) (request : Session → Session) : Session :=
  if !s.amqpErrors then request s else s

/-- The second part: each request is made only if none before it went wrong. -/
def Session.opened (o : Options) (b : Broker) (s : Session) : Session :=
  let s := n2aOnError (amqpSocketOpenNoblock o b s)
  let s := s.unlessErrors fun s => n2aOnAmqpError (amqpLogin o b s)
  let s := s.unlessErrors fun s => n2aOnAmqpError (amqpGetRpcReply b (amqpChannelOpen s))
  s.unlessErrors fun s =>
    if o.exchangeType.isSome then n2aOnAmqpError (amqpGetRpcReply b (amqpExchangeDeclare o s))
    else s

/-- The last part. A new connection makes the next check flush the queue at once. -/
def Session.concluded (s : Session) : Session :=
  if !s.amqpErrors then { s with amqpConnected := true, fifoLastFlush := 0 }
  else { s with amqpConnected := false }

def n2aAmqpConnect (o : Options) (b : Broker) (s : Session) : Bool × Session :=
  let s := ((s.renewed b).opened o b).concluded
  (s.amqpConnected, s)

def n2aAmqpCheck (o : Options) (b : Broker) (s : Session) : Bool × Session :=
  if s.blackout then (false, s)
  else if s.amqpConnected then (s.amqpConnected, s)
  else
    let (tvSec, s) := gettimeofday b { s with amqpConnected := false }
    let timestamp := tvSec.toInt32
    let elapsed := timestamp - s.amqpLastConnect
    let s :=
      if s.amqpLastConnect = 0 ∨ (!s.amqpConnected ∧ elapsed ≥ o.amqpWaitTime) then
        (n2aAmqpConnect o b s).2
      else s
    (s.amqpConnected, s)

/-- Closing the connection in use. -/
def Session.closeCurrent (b : Broker) (s : Session) : Session :=
  let s := n2aOnAmqpError (amqpChannelClose b s)
  let s := n2aOnAmqpError (amqpConnectionClose b s)
  n2aOnError (amqpDestroyConnection b s)

/-- Errors while closing stay noted in `amqp_errors`. -/
def n2aAmqpDisconnect (b : Broker) (s : Session) : Session :=
  let s := { s with amqpErrors := false }
  let s := if s.amqpConnected then s.closeCurrent b else s
  { s with conn := none, amqpConnected := false }

def n2aToggleBlackout (b : Broker) (s : Session) : Bool × Session :=
  let s :=
    if !s.blackout then { n2aAmqpDisconnect b s with blackout := true }
    else { s with blackout := false }
  (s.blackout, s)

def n2aAmqpPublish (o : Options) (b : Broker) (ev : Event) (s : Session) : Bool × Session :=
  match n2aAmqpCheck o b s with
  | (false, s) => (false, s.call (.published none false))
  | (true, s) =>
      let (result, s) := amqpBasicPublish o b ev s
      let s := n2aOnError (result, s)
      if s.amqpErrors then
        (false, (n2aAmqpDisconnect b s).call (.published (some result) false))
      else (true, s.call (.published (some result) true))

end Neb2Amqp
