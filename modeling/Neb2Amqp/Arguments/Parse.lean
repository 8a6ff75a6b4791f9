import Mathlib.Logic.Function.Basic
import Neb2Amqp.Arguments.Tokens
import Neb2Amqp.Options

/-!
# n2a_parse_arguments

The fields of the module arguments are cut out of one copy of the text, and each field
into its parts. String options point into that copy. The messages logged on the way are
left out.
-/

namespace Neb2Amqp

open CLib

/-! ## The members of g_options -/

inductive IntOption
  | port
  | maxSize
  | autosync
  | autoflush
  | flushInterval
  | rate
  | flush
  | purge
  | cacheSize
  | hostgroups
  | servicegroups
  | acknowledgement
  | downtime
  | customVariables
  | urls
  | amqpWaitTime
  | logLevel
  deriving DecidableEq

inductive StrOption
  | hostname
  | cacheFile
  | userid
  | password
  | virtualHost
  | exchangeName
  | exchangeType
  | connector
  | eventsourceName
  deriving DecidableEq

/-- `g_options`, with `P` for the string members. -/
structure Settings (P : Type) where
  int : IntOption → Int32
  str : StrOption → P

namespace Settings

variable {P Q : Type}

def setInt (g : Settings P) (x : IntOption) (v : Int32) : Settings P :=
  { g with int := Function.update g.int x v }

def setStr (g : Settings P) (x : StrOption) (p : P) : Settings P :=
  { g with str := Function.update g.str x p }

def map (f : P → Q) (g : Settings P) : Settings Q := ⟨g.int, fun x => f (g.str x)⟩

@[simp] theorem map_setInt (f : P → Q) (g : Settings P) (x : IntOption) (v : Int32) :
    (g.setInt x v).map f = (g.map f).setInt x v := rfl

@[simp] theorem map_setStr (f : P → Q) (g : Settings P) (x : StrOption) (p : P) :
    (g.setStr x p).map f = (g.map f).setStr x (f p) := by
  have hstr : (fun y => f (Function.update g.str x p y)) =
      Function.update (fun y => f (g.str y)) x (f p) := by
    funext y
    by_cases hy : y = x
    · subst hy
      simp
    · simp [hy]
  simp only [setStr, map, hstr]

end Settings

def Options.settings (o : Options) : Settings (Option CString) where
  int
    | .port => o.port
    | .maxSize => o.maxSize
    | .autosync => o.autosync
    | .autoflush => o.autoflush
    | .flushInterval => o.flushInterval
    | .rate => o.rate
    | .flush => o.flush
    | .purge => o.purge
    | .cacheSize => o.cacheSize
    | .hostgroups => o.hostgroups
    | .servicegroups => o.servicegroups
    | .acknowledgement => o.acknowledgement
    | .downtime => o.downtime
    | .customVariables => o.customVariables
    | .urls => o.urls
    | .amqpWaitTime => o.amqpWaitTime
    | .logLevel => o.logLevel
  str
    | .hostname => o.hostname
    | .cacheFile => o.cacheFile
    | .userid => o.userid
    | .password => o.password
    | .virtualHost => o.virtualHost
    | .exchangeName => o.exchangeName
    | .exchangeType => o.exchangeType
    | .connector => o.connector
    | .eventsourceName => o.eventsourceName

def Settings.options (g : Settings (Option CString)) : Options where
  hostname := g.str .hostname
  port := g.int .port
  maxSize := g.int .maxSize
  autosync := g.int .autosync
  autoflush := g.int .autoflush
  flushInterval := g.int .flushInterval
  rate := g.int .rate
  flush := g.int .flush
  purge := g.int .purge
  cacheSize := g.int .cacheSize
  cacheFile := g.str .cacheFile
  userid := g.str .userid
  password := g.str .password
  virtualHost := g.str .virtualHost
  exchangeName := g.str .exchangeName
  exchangeType := g.str .exchangeType
  connector := g.str .connector
  eventsourceName := g.str .eventsourceName
  hostgroups := g.int .hostgroups
  servicegroups := g.int .servicegroups
  acknowledgement := g.int .acknowledgement
  downtime := g.int .downtime
  customVariables := g.int .customVariables
  urls := g.int .urls
  amqpWaitTime := g.int .amqpWaitTime
  logLevel := g.int .logLevel

@[simp] theorem Options.settings_options (o : Options) : o.settings.options = o := rfl

@[simp] theorem Settings.options_settings (g : Settings (Option CString)) :
    g.options.settings = g := by
  cases g with
  | mk int str =>
      simp only [Options.settings, Settings.options, Settings.mk.injEq]
      constructor <;> funext x <;> cases x <;> rfl

/-- A string member: what it was set to before, or a place in `g_args`. -/
inductive CharPtr
  | given (s : Option CString)
  | inArgs (p : Nat)

def CharPtr.ofToken : Option Nat → CharPtr
  | none => .given none
  | some p => .inArgs p

def CharPtr.read (mem : Bytes) : CharPtr → Option CString
  | .given s => s
  | .inArgs p => some (textAt mem p)

/-! ## The keys -/

/-- What the branch for a key does with the value. -/
inductive Handling
  | number (x : IntOption) (base : Nat)
  | text (x : StrOption)
  | purge
  | rate
  | flush
  | host
  deriving DecidableEq

/-- The keys in the order in which `strcmp` tries them. -/
def handlings : List (CString × Handling) :=
  [(.lit "debug", .number .logLevel 10),
    (.lit "purge", .purge),
    (.lit "rate", .rate),
    (.lit "flush", .flush),
    (.lit "max_size", .number .maxSize 10),
    (.lit "amqp_wait_time", .number .amqpWaitTime 10),
    (.lit "autoflush", .number .autoflush 10),
    (.lit "flush_interval", .number .flushInterval 10),
    (.lit "cache_size", .number .cacheSize 10),
    (.lit "cache_file", .text .cacheFile),
    (.lit "autosync", .number .autosync 10),
    (.lit "name", .text .eventsourceName),
    (.lit "userid", .text .userid),
    (.lit "password", .text .password),
    (.lit "virtual_host", .text .virtualHost),
    (.lit "exchange_name", .text .exchangeName),
    (.lit "exchange_type", .text .exchangeType),
    (.lit "connector", .text .connector),
    (.lit "port", .number .port 10),
    (.lit "host", .host),
    (.lit "hostgroups", .number .hostgroups 2),
    (.lit "servicegroups", .number .servicegroups 2),
    (.lit "acknowledgement", .number .acknowledgement 2),
    (.lit "downtime", .number .downtime 2),
    (.lit "custom_variables", .number .customVariables 2),
    (.lit "urls", .number .urls 2)]

/-- `strtol` assigned to an `int`. -/
def strtolInt (base : Nat) (s : CString) : Int32 := (strtol base s).1.toInt32

/-- `TRUE` is 1. Of a text that does not begin like a truth value, only the number 1
counts as true. -/
def purgeValue (right : CString) : Int32 :=
  if startsWithLetter right 121 || startsWithLetter right 116 then 1
  else if startsWithLetter right 102 || startsWithLetter right 110 then 0
  else if (strtol 10 right).2 = 0 then 0
  else if strtolInt 10 right = 1 then 1 else 0

/-! ## Fields -/

/-- Both branches that take a text for `host` or `port:host`. -/
def parseHost (mem : Bytes) (subpart : Option Nat) (g : Settings CharPtr) :
    Except Stuck (Bytes × Settings CharPtr) := do
  let (subleft, mem, subpart) ← n2aNextToken mem subpart 58
  let (subright, mem, _) ← n2aNextToken mem subpart 0
  match subright with
  | none => .ok (mem, g.setStr .hostname (.ofToken subleft))
  | some subright =>
      let g := g.setStr .hostname (.inArgs subright)
      let subleft ← deref subleft
      .ok (mem, g.setInt .port (strtolInt 10 (textAt mem subleft)))

def parseValue (mem : Bytes) (left right : Nat) (g : Settings CharPtr) :
    Except Stuck (Bytes × Settings CharPtr) :=
  match handlings.lookup (textAt mem left) with
  | some (.number x base) => .ok (mem, g.setInt x (strtolInt base (textAt mem right)))
  | some (.text x) => .ok (mem, g.setStr x (.inArgs right))
  | some .purge => .ok (mem, g.setInt .purge (purgeValue (textAt mem right)))
  | some .rate =>
      let r := strtolInt 10 (textAt mem right)
      -- the product wraps where `int` is too narrow for it
      .ok (mem, if 0 < r then g.setInt .rate (r * 1000) else g)
  | some .flush =>
      let r := strtolInt 10 (textAt mem right)
      .ok (mem, if 0 < r ∨ r = -1 then g.setInt .flush r else g)
  | some .host => parseHost mem (some right) g
  | none => .ok (mem, g)

/-- The body of the loop. -/
def parseField (mem : Bytes) (token : Nat) (g : Settings CharPtr) :
    Except Stuck (Bytes × Settings CharPtr) := do
  let (left, mem, part) ← n2aNextToken mem (some token) 61
  let (right, mem, _) ← n2aNextToken mem part 0
  match right with
  | none => parseHost mem left g
  | some right =>
      let left ← deref left
      parseValue mem left right g

/-! ## The loop -/

structure ParseState where
  mem : Bytes
  args : Option Nat
  options : Settings CharPtr

/-- One test of the loop and its body: whether there was a field. -/
def parseRound (s : ParseState) : Except Stuck (Bool × ParseState) := do
  let (token, mem, args) ← n2aNextField s.mem s.args
  match token with
  | none => .ok (false, ⟨mem, args, s.options⟩)
  | some token =>
      let (mem, options) ← parseField mem token s.options
      .ok (true, ⟨mem, args, options⟩)

/-- At most `n` rounds: whether there may be more fields, and the state. -/
def parseRounds : Nat → ParseState → Except Stuck (Bool × ParseState)
  | 0, s => .ok (true, s)
  | n + 1, s => do
      let (more, s) ← parseRound s
      if more then parseRounds n s else .ok (false, s)

/-- `n2a_parse_arguments` given time for `n` rounds: whether it has returned, and the
options. -/
def n2aParseArguments (n : Nat) (argsOrig : Option CString) (o : Options) :
    Except Stuck (Bool × Options) :=
  match argsOrig with
  | none => .ok (true, o)
  | some text => do
      let copy := xstrdup (some text)
      let start : ParseState := ⟨copy.getD [], copy.map fun _ => 0, o.settings.map .given⟩
      let (more, s) ← parseRounds n start
      .ok (!more, (s.options.map (CharPtr.read s.mem)).options)

end Neb2Amqp
