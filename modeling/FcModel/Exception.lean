import FcModel.Log.Message

-- `fc::exception`: the classes of exceptions, the variant of an exception, and how the class is
-- restored where an exception is thrown again.

open Ascii Variant MutableVariantObject Typed Log

-- What an exception carries, whatever its class is.
structure Exception where
  code : Int64 := 0
  name : Bytes := ascii "exception"
  what : Bytes := ascii "unspecified"
  elog : List LogMessage := []

namespace Exception

-- A class that is declared with `FC_DECLARE_EXCEPTION`: its name, its code and what it says.
structure Derived where
  type : Bytes
  code : Int64
  what : Bytes
deriving DecidableEq

-- The classes of the objects that are thrown.
inductive Class
  | exception
  | unhandledException
  | stdExceptionWrapper
  | derived (c : Derived)
deriving DecidableEq

section Classes

def timeoutException : Derived := ⟨ascii "timeout_exception", 2, ascii "Timeout"⟩
def fileNotFoundException : Derived := ⟨ascii "file_not_found_exception", 3, ascii "File Not Found"⟩
def parseErrorException : Derived := ⟨ascii "parse_error_exception", 4, ascii "Parse Error"⟩
def invalidArgException : Derived := ⟨ascii "invalid_arg_exception", 5, ascii "Invalid Argument"⟩
def keyNotFoundException : Derived := ⟨ascii "key_not_found_exception", 6, ascii "Key Not Found"⟩
def badCastException : Derived := ⟨ascii "bad_cast_exception", 7, ascii "Bad Cast"⟩
def outOfRangeException : Derived := ⟨ascii "out_of_range_exception", 8, ascii "Out of Range"⟩
def canceledException : Derived := ⟨ascii "canceled_exception", 9, ascii "Canceled"⟩
def assertException : Derived := ⟨ascii "assert_exception", 10, ascii "Assert Exception"⟩
def eofException : Derived := ⟨ascii "eof_exception", 11, ascii "End Of File"⟩
def invalidOperationException : Derived :=
  ⟨ascii "invalid_operation_exception", 14, ascii "Invalid Operation"⟩
def unknownHostException : Derived := ⟨ascii "unknown_host_exception", 15, ascii "Unknown Host"⟩
def nullOptional : Derived := ⟨ascii "null_optional", 16, ascii "null optional"⟩
def udtException : Derived := ⟨ascii "udt_exception", 17, ascii "UDT error"⟩
def aesException : Derived := ⟨ascii "aes_exception", 18, ascii "AES error"⟩
def overflowException : Derived := ⟨ascii "overflow_exception", 19, ascii "Integer Overflow"⟩
def underflowException : Derived := ⟨ascii "underflow_exception", 20, ascii "Integer Underflow"⟩
def divideByZeroException : Derived :=
  ⟨ascii "divide_by_zero_exception", 21, ascii "Integer Divide By Zero"⟩

-- In the order of their registration.
def registered : List Derived := [
  timeoutException, fileNotFoundException, parseErrorException, invalidArgException,
  invalidOperationException, keyNotFoundException, badCastException, outOfRangeException,
  canceledException, assertException, eofException, unknownHostException, nullOptional, udtException,
  aesException, overflowException, underflowException, divideByZeroException]

end Classes

section Variants

variable (L : LexicalCast) (D : Doubles) (P : PosixTime)

def messagesToVariant (ms : List LogMessage) : Except Log.Error Variant :=
  if Raw.maxNumArrayElements < ms.length then .error .tooLarge
  else .ok (.array (ms.map (LogMessage.toVariant L P)))

def messagesFromVariant (v : Variant) : Except Log.Error (List LogMessage) := do
  let vars ← lift v.getArray
  if Raw.maxNumArrayElements < vars.length then .error .tooLarge
  else vars.mapM (LogMessage.fromVariant L D P)

-- `name` and `what` return C strings.
def toVariant (e : Exception) : Except Log.Error Variant := do
  let stack ← messagesToVariant L P e.elog
  let o := set [] (ascii "code") (.int64 e.code)
  let o := set o (ascii "name") (.string (cStr e.name))
  let o := set o (ascii "message") (.string (cStr e.what))
  return .object (set o (ascii "stack") stack)

-- Members for which there is no entry stay as they are in `ll`.
def fromVariant (ll : Exception) (v : Variant) : Except Log.Error Exception := do
  let obj ← lift (getObject v)
  let elog ← match VariantObject.find obj (ascii "stack") with
    | some v => messagesFromVariant L D P v
    | none   => pure ll.elog
  let code ← match VariantObject.find obj (ascii "code") with
    | some v => lift (v.asInt64 L D)
    | none   => pure ll.code
  let name ← match VariantObject.find obj (ascii "name") with
    | some v => lift (v.asString L)
    | none   => pure ll.name
  let what ← match VariantObject.find obj (ascii "message") with
    | some v => lift (v.asString L)
    | none   => pure ll.what
  return { code, name, what, elog }

end Variants

-- `exception_factory`: the builder for each code.
abbrev Factory := Int64 → Option Derived

-- A second class with the code of another one takes its place.
def registerException (f : Factory) (c : Derived) : Factory :=
  Function.update f c.code (some c)

def factory (cs : List Derived) : Factory :=
  cs.foldl registerException fun _ => none

-- An object that is thrown: an exception, with the foreign one it wraps, or a foreign one.
inductive Thrown (ι : Type)
  | fc (cls : Class) (e : Exception) (inner : Option ι)
  | foreign (i : ι)

section Rethrow

variable {ι : Type}

-- `exception_factory::rethrow`.
def rethrow (f : Factory) (e : Exception) : Thrown ι :=
  match f e.code with
  | some c => .fc (.derived c) e none
  | none   => .fc .exception e none

-- `dynamic_rethrow_exception`, of each class.
def dynamicRethrow (f : Factory) (cls : Class) (e : Exception) (inner : Option ι) : Thrown ι :=
  match cls with
  | .exception => rethrow f e
  | .derived c => if e.code = c.code then .fc cls e inner else rethrow f e
  | .unhandledException | .stdExceptionWrapper =>
    match inner with
    | some i => .foreign i
    | none   => rethrow f e

end Rethrow

section Registry

variable {cs : List Derived} {c : Derived} {k : Int64}

theorem foldl_registerException (f : Factory) (k : Int64) :
    cs.foldl registerException f k = ((cs.reverse.find? fun c => c.code = k).or (f k)) := by
  induction cs generalizing f
  case nil => simp
  case cons c cs hi =>
    rw [List.foldl_cons, hi, List.reverse_cons, List.find?_append, Option.or_assoc]
    congr 1
    by_cases h : c.code = k
    case pos => simp [registerException, h]
    case neg => simp [registerException, h, Function.update_of_ne (Ne.symm h)]

-- The class that was registered last is the one that is thrown.
theorem factory_eq (cs : List Derived) (k : Int64) :
    factory cs k = cs.reverse.find? fun c => c.code = k := by
  rw [factory, foldl_registerException, Option.or_none]

theorem factory_of_mem (hn : (cs.map Derived.code).Nodup) (hc : c ∈ cs) :
    factory cs c.code = some c := by
  rw [factory_eq]
  have hsome : (cs.reverse.find? fun d => d.code = c.code).isSome :=
    List.find?_isSome.mpr ⟨c, List.mem_reverse.mpr hc, decide_eq_true rfl⟩
  obtain ⟨d, hd⟩ := Option.isSome_iff_exists.mp hsome
  have hcode : d.code = c.code := by simpa using List.find?_some hd
  have hmem := List.mem_reverse.mp (List.mem_of_find?_eq_some hd)
  rw [hd, List.inj_on_of_nodup_map hn hmem hc hcode]

end Registry

end Exception
