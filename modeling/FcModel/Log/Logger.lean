import FcModel.Lib.Machine
import FcModel.Log.Message

-- Loggers: handles that share their loggers with the configuration, and what a configuration makes
-- of them. The configuration is behind a mutex, so that its operations do not interleave.

namespace Log

open Ascii Variant MutableVariantObject

-- The members of `logger::impl`. Loggers and appenders are given by their addresses.
structure Logger where
  name       : Bytes := []
  parent     : Option Nat := none
  enabled    : Bool := true
  additivity : Bool := false
  level      : LogLevel := .warn
  appenders  : List Nat := []

structure AppenderConfig where
  name    : Bytes := []
  type    : Bytes := []
  args    : Variant := .null
  enabled : Bool := true

structure LoggerConfig where
  name       : Bytes := []
  parent     : Option Bytes := none
  level      : Option LogLevel := none
  enabled    : Bool := true
  additivity : Bool := false
  appenders  : List Bytes := []

structure LoggingConfig where
  includes  : List Bytes := []
  appenders : List AppenderConfig := []
  loggers   : List LoggerConfig := []

def defaultLogger : Bytes := ascii "default"

def LoggingConfig.defaultConfig : LoggingConfig :=
  let color (level color : Bytes) : Variant :=
    .object (set (set [] (ascii "level") (.string level)) (ascii "color") (.string color))
  let c := [color (ascii "debug") (ascii "green"), color (ascii "warn") (ascii "brown"),
    color (ascii "error") (ascii "red")]
  let args (stream : Bytes) : Variant :=
    .object (set (set [] (ascii "stream") (.string stream)) (ascii "level_colors") (.array c))
  { appenders := [
      { name := ascii "stderr", type := ascii "console", args := args (ascii "std_error") },
      { name := ascii "stdout", type := ascii "console", args := args (ascii "std_out") }]
    loggers := [
      { name := defaultLogger, level := some .info, appenders := [ascii "stderr"] }] }

-- A message that is logged. Copies of a message share its context.
structure Message where
  context : Nat
  format  : Bytes := []
  args    : List Entry := []

-- A call of an appender: the message as the appender found it, and whether the appender threw.
structure Delivery where
  appender : Nat
  message  : LogMessage
  threw    : Bool

-- What the constructor of an appender throws. Only an `fc::exception` is caught.
inductive Failure
  | fcException
  | other
deriving DecidableEq

abbrev AppenderFactory := Variant → Except Failure Unit

-- `ν` are the variables of the program that hold loggers. An appender is given by what it was
-- created from.
structure State (ν : Type) where
  loggers      : Nat → Logger := fun _ => {}
  nextLogger   : Nat := 0
  appenders    : Nat → AppenderConfig := fun _ => {}
  nextAppender : Nat := 0
  registered   : Bool := false
  factoryMap   : Bytes → Option AppenderFactory := fun _ => none
  appenderMap  : Bytes → Option Nat := fun _ => none
  loggerMap    : Bytes → Option Nat := fun _ => none
  contexts     : Nat → LogContext := fun _ => {}
  deliveries   : List Delivery := []
  handles      : ν → Option Nat := fun _ => none

-- The appenders that are there without being registered by the program.
structure Builtin where
  console : AppenderFactory
  gelf    : AppenderFactory
  dmlog   : AppenderFactory

-- Reading a logger through a null pointer, a chain of parents whose end was not reached, or an
-- exception of the constructor of an appender.
inductive LoggerError
  | nullLogger
  | endless
  | create
deriving DecidableEq

namespace State

variable {ν : Type}

def newLogger (s : State ν) (l : Logger) : Nat × State ν :=
  (s.nextLogger, { s with
    loggers    := Function.update s.loggers s.nextLogger l
    nextLogger := s.nextLogger + 1 })

def setLogger (s : State ν) (i : Nat) (f : Logger → Logger) : State ν :=
  { s with loggers := Function.update s.loggers i (f (s.loggers i)) }

-- `logger_map[name]`: a logger that is not there is made.
def loggerAt (s : State ν) (name : Bytes) : Nat × State ν :=
  match s.loggerMap name with
  | some i => (i, s)
  | none   =>
    let (i, s) := s.newLogger {}
    (i, { s with loggerMap := Function.update s.loggerMap name (some i) })

section Configuration

def registerAppender (s : State ν) (type : Bytes) (f : AppenderFactory) : State ν :=
  { s with factoryMap := Function.update s.factoryMap type (some f) }

-- The registrations are initializers of static variables.
def registerBuiltin (B : Builtin) (s : State ν) : State ν :=
  if s.registered then s
  else
    let s := s.registerAppender (ascii "console") B.console
    let s := s.registerAppender (ascii "gelf") B.gelf
    { s.registerAppender (ascii "dmlog") B.dmlog with registered := true }

-- Appenders of an unknown type are skipped.
def createAppender (s : State ν) (c : AppenderConfig) : Except Failure (State ν) :=
  match s.factoryMap c.type with
  | none        => return s
  | some create => do
    create c.args
    return { s with
      appenders    := Function.update s.appenders s.nextAppender c
      nextAppender := s.nextAppender + 1
      appenderMap  := Function.update s.appenderMap c.name (some s.nextAppender) }

-- The appenders that were made before one of them throws stay where they are.
def createAppenders : State ν → List AppenderConfig → State ν × Option Failure
  | s, []      => (s, none)
  | s, c :: cs =>
    match s.createAppender c with
    | .error e => (s, some e)
    | .ok s    => s.createAppenders cs

def setParentOf (s : State ν) (i : Nat) : Option Bytes → State ν
  | none   => s
  | some p =>
    let (j, s) := s.loggerAt p
    s.setLogger i fun l => { l with parent := some j }

def addAppender (i : Nat) (s : State ν) (a : Bytes) : State ν :=
  match s.appenderMap a with
  | some ap => s.setLogger i fun l => { l with appenders := l.appenders ++ [ap] }
  | none    => s

-- Whether the logger is enabled, and its additivity, are not configured.
def configureLogger (s : State ν) (c : LoggerConfig) : State ν :=
  let (i, s) := s.loggerAt c.name
  let s := s.setParentOf i c.parent
  let s := s.setLogger i fun l => { l with name := c.name }
  let s := match c.level with
    | some e => s.setLogger i fun l => { l with level := e }
    | none   => s
  c.appenders.foldl (addAppender i) s

-- The maps are cleared first.
def configureLogging (B : Builtin) (cfg : LoggingConfig) (s : State ν) :
    State ν × Except Failure Bool :=
  let s := s.registerBuiltin B
  let s := { s with loggerMap := fun _ => none, appenderMap := fun _ => none }
  match s.createAppenders cfg.appenders with
  | (s, some .fcException) => (s, .ok false)
  | (s, some .other)       => (s, .error .other)
  | (s, none)              => (cfg.loggers.foldl configureLogger s, .ok true)

end Configuration

-- A name that is not configured is bound to the default logger, if there is one.
def updateLogger (s : State ν) (name : Bytes) (log : Option Nat) : Option Nat × State ν :=
  match s.loggerMap name with
  | some i => (some i, s)
  | none   =>
    match s.loggerMap defaultLogger with
    | some i => (some i, { s with loggerMap := Function.update s.loggerMap name (some i) })
    | none   => (log, s)

section Log

variable (throws : List Delivery → Nat → LogMessage → Bool)

-- An appender may do anything that depends on what it and the others were called with before. What
-- it throws is caught.
def callAppender (m : Message) (s : State ν) (a : Nat) : State ν :=
  let message := ⟨s.contexts m.context, m.format, m.args⟩
  { s with deliveries := s.deliveries ++ [⟨a, message, throws s.deliveries a message⟩] }

-- The fuel bounds the chain of parents.
def log : Nat → State ν → Nat → Message → Option (State ν)
  | 0, _, _, _     => none
  | n + 1, s, i, m =>
    let l := s.loggers i
    let context := (s.contexts m.context).appendContext l.name
    let s := { s with contexts := Function.update s.contexts m.context context }
    let s := l.appenders.foldl (callAppender throws m) s
    if l.additivity then
      match l.parent with
      | some p => log n s p m
      | none   => some s
    else some s

end Log

end State

inductive Op (ν : Type)
  | create (h : ν)
  | createNull (h : ν)
  | createNamed (h : ν) (name : Bytes) (parent : ν)
  | copy (h l : ν)
  | move (h l : ν)
  | moveAssign (h l : ν)
  | get (h : ν) (name : Bytes)
  | update (h : ν) (name : Bytes)
  | setName (h : ν) (name : Bytes)
  | setParent (h parent : ν)
  | getParent (h l : ν)
  | setLogLevel (h : ν) (level : LogLevel)
  | isEnabled (h : ν) (level : LogLevel)
  | log (h : ν) (m : Message)
  -- The macros `fc_dlog` to `fc_elog`.
  | logIfEnabled (h : ν) (level : LogLevel) (m : Message)
  | registerAppender (type : Bytes) (f : AppenderFactory)
  | configureLogging (cfg : LoggingConfig)

section Step

variable {ν : Type} [DecidableEq ν] (B : Builtin)
  (throws : List Delivery → Nat → LogMessage → Bool) (fuel : Nat)

abbrev Action (ν : Type) := EStateM LoggerError (State ν)

def setHandle (h : ν) (l : Option Nat) : Action ν Unit :=
  modify fun s => { s with handles := Function.update s.handles h l }

-- The logger that a handle points to.
def impl (h : ν) : Action ν Nat := do
  match (← get).handles h with
  | some i => return i
  | none   => throw .nullLogger

def logTo (i : Nat) (m : Message) : Action ν Unit := do
  match (← get).log throws fuel i m with
  | some s => set s
  | none   => throw .endless

def isEnabled (h : ν) (level : LogLevel) : Action ν Bool := do
  let i ← impl h
  return level.value ≥ ((← get).loggers i).level.value

def step : Op ν → Action ν (Option Bool)
  | .create h => do
    let (i, s) := (← get).newLogger {}
    set s
    setHandle h (some i)
    return none
  | .createNull h => do
    setHandle h none
    return none
  | .createNamed h name parent => do
    let s ← get
    let (i, s) := s.newLogger { name, parent := s.handles parent }
    set s
    setHandle h (some i)
    return none
  | .copy h l => do
    setHandle h ((← get).handles l)
    return none
  | .move h l => do
    let i := (← get).handles l
    setHandle l none
    setHandle h i
    return none
  | .moveAssign h l => do
    let s ← get
    setHandle h (s.handles l)
    setHandle l (s.handles h)
    return none
  | .get h name => do
    let (i, s) := (← get).loggerAt name
    set s
    setHandle h (some i)
    return none
  | .update h name => do
    let s ← get
    let (i, s) := s.updateLogger name (s.handles h)
    set s
    setHandle h i
    return none
  | .setName h name => do
    let i ← impl h
    modify fun s => s.setLogger i fun l => { l with name }
    return none
  | .setParent h parent => do
    let i ← impl h
    modify fun s => s.setLogger i fun l => { l with parent := s.handles parent }
    return none
  | .getParent h l => do
    let i ← impl l
    setHandle h ((← get).loggers i).parent
    return none
  | .setLogLevel h level => do
    let i ← impl h
    modify fun s => s.setLogger i fun l => { l with level }
    return none
  | .isEnabled h level => some <$> isEnabled h level
  | .log h m => do
    logTo throws fuel (← impl h) m
    return none
  | .logIfEnabled h level m => do
    if ← isEnabled h level then
      logTo throws fuel (← impl h) m
    return none
  | .registerAppender type f => do
    modify fun s => s.registerAppender type f
    return some true
  | .configureLogging cfg => do
    let (s, r) := (← get).configureLogging B cfg
    set s
    match r with
    | .ok b    => return some b
    | .error _ => throw .create

end Step

end Log
