import FcModel.Io.Json.Typed
import FcModel.Time

-- `log_context` and `log_message`, and the variants they are converted to.

namespace Log

open Ascii Variant MutableVariantObject Typed

inductive LogLevel
  | all
  | debug
  | info
  | warn
  | error
  | off
deriving DecidableEq, Repr

structure LogContext where
  level      : LogLevel := .off
  file       : Bytes := []
  line       : UInt64 := 0
  method     : Bytes := []
  threadName : Bytes := []
  taskName   : Bytes := []
  hostname   : Bytes := []
  context    : Bytes := []
  timestamp  : TimePoint := ⟨⟨0⟩⟩

structure LogMessage where
  context : LogContext := {}
  format  : Bytes := []
  args    : List Entry := []

inductive Error
  | cast (e : CastError)
  -- "Key ${key}"
  | keyNotFound (key : Bytes)
  -- "Failed to cast from Variant to log_level"
  | level
  | time (e : TimePoint.Error)
  -- `std::range_error( "too large" )`.
  | tooLarge

-- The number that levels are compared by.
def LogLevel.value : LogLevel → Nat
  | all   => 0
  | debug => 1
  | info  => 2
  | warn  => 3
  | error => 4
  | off   => 5

def LogLevel.text : LogLevel → Bytes
  | all   => ascii "all"
  | debug => ascii "debug"
  | info  => ascii "info"
  | warn  => ascii "warn"
  | error => ascii "error"
  | off   => ascii "off"

def LogLevel.toVariant (e : LogLevel) : Variant :=
  .string e.text

def LogContext.appendContext (c : LogContext) (s : Bytes) : LogContext :=
  { c with context := (if c.context ≠ [] then c.context ++ ascii " -> " else c.context) ++ s }

section ToVariant

variable (L : LexicalCast) (P : PosixTime)

-- The name of the task is not written, and the context only if there is one.
def LogContext.toVariant (c : LogContext) : Variant :=
  let o := set [] (ascii "level") c.level.toVariant
  let o := set o (ascii "file") (.string c.file)
  let o := set o (ascii "line") (.uint64 c.line)
  let o := set o (ascii "method") (.string c.method)
  let o := set o (ascii "hostname") (.string c.hostname)
  let o := set o (ascii "thread_name") (.string c.threadName)
  let o := set o (ascii "timestamp") (.string (c.timestamp.text L P))
  .object (if c.context ≠ [] then set o (ascii "context") (.string c.context) else o)

def LogMessage.toVariant (m : LogMessage) : Variant :=
  let o := set [] (ascii "context") (m.context.toVariant L P)
  let o := set o (ascii "format") (.string m.format)
  .object (set o (ascii "data") (.object m.args))

end ToVariant

section FromVariant

variable (L : LexicalCast) (D : Doubles) (P : PosixTime)

def lift {α : Type} : Except CastError α → Except Error α :=
  Except.mapError .cast

-- `variant_object::operator[]`.
def entryAt (obj : List Entry) (key : Bytes) : Except Error Variant :=
  match VariantObject.find obj key with
  | some v => .ok v
  | none   => .error (.keyNotFound key)

def stringAt (obj : List Entry) (key : Bytes) : Except Error Bytes := do
  lift ((← entryAt obj key).asString L)

def LogLevel.fromVariant (v : Variant) : Except Error LogLevel := do
  let s ← lift (v.asString L)
  if s = ascii "all" then return all
  else if s = ascii "debug" then return debug
  else if s = ascii "info" then return info
  else if s = ascii "warn" then return warn
  else if s = ascii "error" then return error
  else if s = ascii "off" then return off
  else throw .level

def timePointFromVariant (v : Variant) : Except Error TimePoint := do
  (TimePoint.fromIsoString L P (← lift (v.asString L))).mapError .time

-- The constructor of a context that reads a variant.
def LogContext.fromVariant (v : Variant) : Except Error LogContext := do
  let obj ← lift (getObject v)
  let level ← LogLevel.fromVariant L (← entryAt obj (ascii "level"))
  let file ← stringAt L obj (ascii "file")
  let line ← lift ((← entryAt obj (ascii "line")).asUint64 L D)
  let method ← stringAt L obj (ascii "method")
  let hostname ← stringAt L obj (ascii "hostname")
  let threadName ← stringAt L obj (ascii "thread_name")
  let taskName ← match VariantObject.find obj (ascii "task_name") with
    | some v => lift (v.asString L)
    | none   => pure []
  let timestamp ← timePointFromVariant L P (← entryAt obj (ascii "timestamp"))
  let context ← match VariantObject.find obj (ascii "context") with
    | some v => lift (v.asString L)
    | none   => pure []
  return { level, file, line, method, hostname, threadName, taskName, timestamp, context }

def LogMessage.fromVariant (v : Variant) : Except Error LogMessage := do
  let obj ← lift (getObject v)
  let context ← LogContext.fromVariant L D P (← entryAt obj (ascii "context"))
  let format ← stringAt L obj (ascii "format")
  let args ← lift (getObject (← entryAt obj (ascii "data")))
  return { context, format, args }

end FromVariant

section RoundTrip

open Json

variable {L : LexicalCast} {D : Doubles} {P : PosixTime} {format : OutputFormatting}

-- The entries that a context is written with.
def LogContext.entries (L : LexicalCast) (P : PosixTime) (c : LogContext) : List Entry :=
  [(ascii "level", c.level.toVariant), (ascii "file", .string c.file),
    (ascii "line", .uint64 c.line), (ascii "method", .string c.method),
    (ascii "hostname", .string c.hostname), (ascii "thread_name", .string c.threadName),
    (ascii "timestamp", .string (c.timestamp.text L P))] ++
  if c.context ≠ [] then [(ascii "context", .string c.context)] else []

theorem LogContext.toVariant_eq (c : LogContext) : c.toVariant L P = .object (c.entries L P) := by
  by_cases h : c.context ≠ []
  case pos => rw [toVariant, entries, if_pos h, if_pos h]; rfl
  case neg => rw [toVariant, entries, if_neg h, if_neg h]; rfl

theorem LogMessage.toVariant_eq (m : LogMessage) : m.toVariant L P =
    .object [(ascii "context", m.context.toVariant L P), (ascii "format", .string m.format),
      (ascii "data", .object m.args)] :=
  rfl

theorem LogLevel.fromVariant_toVariant (e : LogLevel) : fromVariant L e.toVariant = .ok e := by
  cases e <;> rfl

theorem stringAt_eq {es : List Entry} {k s : Bytes}
    (h : VariantObject.find es k = some (.string s)) : stringAt L es k = .ok s := by
  simp only [stringAt, entryAt, h]
  rfl

-- A context is read back from what is read of its variant.
variable (D format) in
theorem LogContext.fromVariant_reread (hL : L.Exact) (hP : P.Exact) (c : LogContext)
    (ht : TimePoint.Whole c.timestamp) :
    fromVariant L D P (reread format (c.toVariant L P)) = .ok { c with taskName := [] } := by
  have htime := TimePoint.fromIsoString_text hL hP ht
  rw [toVariant_eq, reread_object]
  generalize hes : (c.entries L P).map (fun e => (e.1, reread format e.2)) = es
  -- Whether there is a context makes no difference to the other entries.
  have hfind (k : Bytes) :
      VariantObject.find es k = (VariantObject.find (c.entries L P) k).map (reread format) := by
    rw [← hes, find_map]
  have hlevel : VariantObject.find es (ascii "level") = some c.level.toVariant := by
    rw [hfind, entries]
    split <;> rfl
  have hfile : VariantObject.find es (ascii "file") = some (.string c.file) := by
    rw [hfind, entries]
    split <;> rfl
  have hline : VariantObject.find es (ascii "line") = some (reread format (.uint64 c.line)) := by
    rw [hfind, entries]
    split <;> rfl
  have hmethod : VariantObject.find es (ascii "method") = some (.string c.method) := by
    rw [hfind, entries]
    split <;> rfl
  have hhost : VariantObject.find es (ascii "hostname") = some (.string c.hostname) := by
    rw [hfind, entries]
    split <;> rfl
  have hthread : VariantObject.find es (ascii "thread_name") = some (.string c.threadName) := by
    rw [hfind, entries]
    split <;> rfl
  have htask : VariantObject.find es (ascii "task_name") = none := by
    rw [hfind, entries]
    split <;> rfl
  have htimestamp : VariantObject.find es (ascii "timestamp") =
      some (.string (c.timestamp.text L P)) := by
    rw [hfind, entries]
    split <;> rfl
  have hcontext : VariantObject.find es (ascii "context") =
      if c.context ≠ [] then some (.string c.context) else none := by
    rw [hfind, entries]
    split <;> rfl
  have hlevel' : entryAt es (ascii "level") = .ok c.level.toVariant := by rw [entryAt, hlevel]
  have hline' : entryAt es (ascii "line") = .ok (reread format (.uint64 c.line)) := by
    rw [entryAt, hline]
  have htimestamp' : entryAt es (ascii "timestamp") = .ok (.string (c.timestamp.text L P)) := by
    rw [entryAt, htimestamp]
  have hread : timePointFromVariant L P (.string (c.timestamp.text L P)) = .ok c.timestamp := by
    change Except.mapError Error.time (TimePoint.fromIsoString L P (c.timestamp.text L P)) = _
    rw [htime]
    rfl
  have hobject : lift (getObject (.object es)) = .ok es := rfl
  have hnumber : lift ((reread format (.uint64 c.line)).asUint64 L D) = .ok c.line := by
    rw [asUint64_reread hL]
    rfl
  rw [fromVariant]
  simp only [hobject, Except.ok_bind, hlevel', LogLevel.fromVariant_toVariant, stringAt_eq hfile,
    hline', hnumber, stringAt_eq hmethod, stringAt_eq hhost, stringAt_eq hthread, htask, pure_bind,
    htimestamp', hread, hcontext]
  by_cases h : c.context ≠ []
  case pos => rw [if_pos h]; rfl
  case neg => rw [if_neg h, ← not_not.mp h]; rfl

-- A message keeps its format and its arguments, but for the tags of numbers.
variable (D format) in
theorem LogMessage.fromVariant_reread (hL : L.Exact) (hP : P.Exact) (m : LogMessage)
    (ht : TimePoint.Whole m.context.timestamp) :
    fromVariant L D P (reread format (m.toVariant L P)) = .ok {
      context := { m.context with taskName := [] }
      format  := m.format
      args    := m.args.map fun e => (e.1, reread format e.2) } := by
  have hcontext := LogContext.fromVariant_reread D format hL hP m.context ht
  rw [toVariant_eq, reread_object]
  generalize hes : List.map (fun e : Entry => (e.1, reread format e.2)) _ = es
  have hc : entryAt es (ascii "context") = .ok (reread format (m.context.toVariant L P)) := by
    rw [← hes]
    rfl
  have hf : VariantObject.find es (ascii "format") = some (.string m.format) := by
    rw [← hes]
    rfl
  have hd : entryAt es (ascii "data") = .ok (reread format (.object m.args)) := by
    rw [← hes]
    rfl
  have hobject (es : List Entry) : lift (getObject (.object es)) = .ok es := rfl
  rw [fromVariant]
  simp only [hobject, Except.ok_bind, hc, hcontext, stringAt_eq hf, hd, reread_object]
  rfl

end RoundTrip

end Log
