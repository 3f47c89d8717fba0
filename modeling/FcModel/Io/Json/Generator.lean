import FcModel.Crypto.Base64
import FcModel.Utf8.Basic

-- `json::to_string`.

namespace Json

open Ascii Utf8

variable {ε : Type}

inductive OutputFormatting
  | stringifyLargeIntsAndDoubles
  | legacyGenerator
deriving DecidableEq, Repr

-- The function that is called with the size of the output, and may throw.
abbrev Yield (ε : Type) := Nat → Except ε Unit

def escapeStringYieldCheckCount : Nat := 128

-- What is written for one character. The five that have an escape of their own are only escaped
-- when control characters are.
def escapeChar (escapeControlChars : Bool) (c : UInt8) : Bytes :=
  if (c < 0x20 ∧ c ≠ tab ∧ c ≠ newline ∧ c ≠ carriageReturn) ∨ c = 0x7f then escape c.toNat
  else if escapeControlChars then
    if c = tab then ascii "\\t"
    else if c = newline then ascii "\\n"
    else if c = carriageReturn then ascii "\\r"
    else if c = backslash then ascii "\\\\"
    else if c = quote then ascii "\\\""
    else [c]
  else [c]

def escapeString.go (yield : Yield ε) (escapeControlChars : Bool) (initSize : Nat) :
    (i : Nat) → (r str : Bytes) → Except ε Bytes
  | _, r, []       => return r
  | i, r, c :: str => do
    if i % escapeStringYieldCheckCount = 0 then yield (initSize + r.length)
    go yield escapeControlChars initSize (i + 1) (r ++ escapeChar escapeControlChars c) str

def escapeString (yield : Yield ε) (str : Bytes) (escapeControlChars : Bool) : Except ε Bytes := do
  let r ← escapeString.go yield escapeControlChars str.length 0 [] str
  return if isValidUtf8 r then r else pruneInvalidUtf8 r

-- `variant::as_string` of a `bool` and of a blob.
def boolToString (b : Bool) : Bytes :=
  if b then ascii "true" else ascii "false"

def blobToString (data : Bytes) : Bytes :=
  if data = [] then [] else Base64.base64Encode data ++ ascii "="

def quoted (s : Bytes) : Bytes :=
  [quote] ++ s ++ [quote]

-- Integers that do not fit into 32 bits are written as strings if that is asked for.
def intToStream (format : OutputFormatting) (i : Int) (asString : Bytes) : Bytes :=
  if format = .stringifyLargeIntsAndDoubles ∧ 0xffffffff < i then quoted asString else Decimal.ofInt i

section ToStream

variable (L : LexicalCast) (yield : Yield ε) (format : OutputFormatting)

mutual

-- Appends to the stream `os`.
def toStream : Variant → (os : Bytes) → Except ε Bytes
  | .null, os     => do
    yield os.length
    return os ++ ascii "null"
  | .int64 i, os  => do
    yield os.length
    return os ++ intToStream format i.toInt (L.ofInt64 i)
  | .uint64 i, os => do
    yield os.length
    return os ++ intToStream format i.toNat (L.ofUint64 i)
  | .double d, os => do
    yield os.length
    return os ++ if format = .stringifyLargeIntsAndDoubles then quoted (L.ofDouble d) else L.ofDouble d
  | .bool b, os   => do
    yield os.length
    return os ++ boolToString b
  | .string s, os => do
    yield os.length
    return os ++ quoted (← escapeString yield s true)
  | .blob data, os => do
    yield os.length
    return os ++ quoted (← escapeString yield (blobToString data) true)
  | .array a, os  => do
    yield os.length
    yield os.length
    let os ← elementsToStream a (os ++ [openBracket])
    return os ++ [closeBracket]
  | .object o, os => do
    yield os.length
    yield os.length
    let os ← entriesToStream o (os ++ [openBrace])
    return os ++ [closeBrace]

def elementsToStream : List Variant → (os : Bytes) → Except ε Bytes
  | [], os     => return os
  | v :: a, os => do
    let os ← toStream v os
    elementsToStream a (if a = [] then os else os ++ [comma])

def entriesToStream : List (Bytes × Variant) → (os : Bytes) → Except ε Bytes
  | [], os            => return os
  | (key, v) :: o, os => do
    let os := os ++ quoted (← escapeString yield key true) ++ [colon]
    let os ← toStream v os
    entriesToStream o (if o = [] then os else os ++ [comma])

end

def toString (v : Variant) : Except ε Bytes := do
  let ss ← toStream L yield format v []
  yield ss.length
  return ss

end ToStream

section Text

-- The text itself, for a function that never throws.
def escaped (str : Bytes) : Bytes :=
  let r := str.flatMap (escapeChar true)
  if isValidUtf8 r then r else pruneInvalidUtf8 r

variable (L : LexicalCast) (format : OutputFormatting)

mutual

def text : Variant → Bytes
  | .null      => ascii "null"
  | .int64 i   => intToStream format i.toInt (L.ofInt64 i)
  | .uint64 i  => intToStream format i.toNat (L.ofUint64 i)
  | .double d  => if format = .stringifyLargeIntsAndDoubles then quoted (L.ofDouble d) else L.ofDouble d
  | .bool b    => boolToString b
  | .string s  => quoted (escaped s)
  | .blob data => quoted (escaped (blobToString data))
  | .array a   => [openBracket] ++ elementsText a ++ [closeBracket]
  | .object o  => [openBrace] ++ entriesText o ++ [closeBrace]

def elementsText : List Variant → Bytes
  | []     => []
  | v :: a => text v ++ (if a = [] then [] else [comma]) ++ elementsText a

def entriesText : List (Bytes × Variant) → Bytes
  | []            => []
  | (key, v) :: o =>
    quoted (escaped key) ++ [colon] ++ text v ++ (if o = [] then [] else [comma]) ++ entriesText o

end

end Text

-- `r` is `t`, unless the function that is called in between throws.
inductive Emits (yield : Yield ε) (t : Bytes) : Except ε Bytes → Prop
  | ok : Emits yield t (.ok t)
  | error {e : ε} {n : Nat} (h : yield n = .error e) : Emits yield t (.error e)

namespace Emits

variable {yield : Yield ε} {t t' : Bytes} {r : Except ε Bytes}

theorem yield_bind {n : Nat} (h : Emits yield t r) : Emits yield t (yield n >>= fun _ => r) := by
  cases hy : yield n
  case ok       => exact h
  case error e  => exact .error hy

theorem bind {f : Bytes → Except ε Bytes} (hr : Emits yield t r) (hf : Emits yield t' (f t)) :
    Emits yield t' (r >>= f) := by
  cases hr
  case ok       => exact hf
  case error h  => exact .error h

theorem eq_of_total (h : Emits yield t r) (hy : ∀ n, yield n = .ok ()) : r = .ok t := by
  cases h
  case ok      => rfl
  case error h => rw [hy] at h; cases h

theorem eq_of_ok {s : Bytes} (h : Emits yield t r) (hs : r = .ok s) : s = t := by
  cases h
  case ok    => exact (Except.ok.inj hs).symm
  case error => cases hs

end Emits

variable {L : LexicalCast} {yield : Yield ε} {format : OutputFormatting}

theorem emits_escapeString_go {b : Bool} {k i : Nat} {r str : Bytes} :
    Emits yield (r ++ str.flatMap (escapeChar b)) (escapeString.go yield b k i r str) := by
  induction str generalizing i r
  case nil => simpa [escapeString.go] using .ok
  case cons c str hi =>
    have hi := @hi (i + 1) (r ++ escapeChar b c)
    rw [List.append_assoc, ← List.flatMap_cons] at hi
    rw [escapeString.go]
    split
    case isTrue   => exact hi.yield_bind
    case isFalse  => exact hi

theorem emits_escapeString (str : Bytes) :
    Emits yield (escaped str) (escapeString yield str true) :=
  emits_escapeString_go.bind .ok

theorem emits_elementsToStream {a : List Variant}
    (h : ∀ v ∈ a, ∀ os, Emits yield (os ++ text L format v) (toStream L yield format v os))
    (os : Bytes) :
    Emits yield (os ++ elementsText L format a) (elementsToStream L yield format a os) := by
  induction a generalizing os
  case nil => simpa [elementsText, elementsToStream] using .ok
  case cons v a hi =>
    refine (h v (List.mem_cons_self ..) os).bind ?_
    have hi := hi (fun v hv => h v (List.mem_cons_of_mem _ hv))
      (if a = [] then os ++ text L format v else os ++ text L format v ++ [comma])
    rw [elementsText]
    split at hi
    case isTrue ha  => simpa [ha] using hi
    case isFalse ha => simpa [ha] using hi

theorem emits_entriesToStream {o : List (Bytes × Variant)}
    (h : ∀ e ∈ o, ∀ os, Emits yield (os ++ text L format e.2) (toStream L yield format e.2 os))
    (os : Bytes) :
    Emits yield (os ++ entriesText L format o) (entriesToStream L yield format o os) := by
  induction o generalizing os
  case nil => simpa [entriesText, entriesToStream] using .ok
  case cons e o hi =>
    refine (emits_escapeString e.1).bind ((h e (List.mem_cons_self ..) _).bind ?_)
    have hi := hi (fun e he => h e (List.mem_cons_of_mem _ he))
      (if o = [] then os ++ quoted (escaped e.1) ++ [colon] ++ text L format e.2
        else os ++ quoted (escaped e.1) ++ [colon] ++ text L format e.2 ++ [comma])
    rw [entriesText]
    split at hi
    case isTrue ho  => simpa [ho] using hi
    case isFalse ho => simpa [ho] using hi

theorem emits_toStream (v : Variant) (os : Bytes) :
    Emits yield (os ++ text L format v) (toStream L yield format v os) := by
  induction v using Variant.induct generalizing os
  case null   => exact .yield_bind .ok
  case int64  => exact .yield_bind .ok
  case uint64 => exact .yield_bind .ok
  case double => exact .yield_bind .ok
  case bool   => exact .yield_bind .ok
  case string => exact .yield_bind ((emits_escapeString _).bind .ok)
  case blob   => exact .yield_bind ((emits_escapeString _).bind .ok)
  case array a ha =>
    refine .yield_bind (.yield_bind ((emits_elementsToStream ha _).bind ?_))
    rw [text, List.append_assoc, List.append_assoc]
    simpa using .ok
  case object o ho =>
    refine .yield_bind (.yield_bind ((emits_entriesToStream ho _).bind ?_))
    rw [text, List.append_assoc, List.append_assoc]
    simpa using .ok

-- The generator either writes the text, or passes on an exception of the function it calls.
theorem emits_toString (v : Variant) : Emits yield (text L format v) (toString L yield format v) :=
  (emits_toStream v []).bind (.yield_bind .ok)

end Json
