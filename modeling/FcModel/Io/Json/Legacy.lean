import FcModel.Io.Json.Stream

-- The parser behind `legacy_parser` and `legacy_parser_with_string_doubles`.

namespace Json

open Ascii

def stringFromStream.go : Nat → (token : Bytes) → Parser Bytes
  | 0, _            => throw .fuel
  | fuel + 1, token => do
    if (← get).eof then
      throw (.parseError "EOF before closing '\"' in string")
    else
      let c ← peekChar
      if c = backslash then
        let e ← parseEscape
        go fuel (token ++ [e])
      else if c = 0x04 then
        throw (.parseError "EOF before closing '\"' in string")
      else if c = quote then
        let _ ← getc
        return token
      else
        let _ ← getc
        go fuel (token ++ [c])

def stringFromStream (fuel : Nat) : Parser Bytes := do
  let c ← peekChar
  if c ≠ quote then
    throw (.parseError "Expected '\"'")
  else
    let _ ← getc
    stringFromStream.go fuel []

-- What the scan of a number ends with: its characters and whether there is a point among them, or a
-- string that only starts like a number.
inductive Scanned
  | number (str : Bytes) (dot : Bool)
  | token (str : Bytes)
deriving DecidableEq, Repr

-- The exception at a NUL is caught by the function itself.
def numberFromStream.go : Nat → (ss : Bytes) → (dot : Bool) → Parser Scanned
  | 0, _, _           => throw .fuel
  | fuel + 1, ss, dot => do
    let c ← peekChar
    if c = Ascii.dot then
      if dot then
        throw (.parseError "Can't parse a number with two decimal places")
      else
        let b ← getChar
        go fuel (ss ++ [b]) true
    else if isDigit c then
      let b ← getChar
      go fuel (ss ++ [b]) dot
    else if c = 0 then
      return .number ss dot
    else if isalnum c then
      let token ← stringFromToken fuel
      return .token (ss ++ token)
    else
      return .number ss dot

-- What follows the loop.
def numberFromStream.result (L : LexicalCast) (stringDoubles neg : Bool) : Scanned → Parser Variant
  | .token str      => return .string str
  | .number str dot => do
    if str = ascii "-." ∨ str = ascii "." ∨ str = ascii "-" then
      throw (.parseError "Can't parse token as a JSON numeric constant")
    else if dot then
      if stringDoubles then return .string str
      else return .double (← converted (L.toDouble str) "Couldn't parse double")
    else if neg then
      return .int64 (← converted (L.toInt64 str) "Couldn't parse int64_t")
    else
      return .uint64 (← converted (L.toUint64 str) "Couldn't parse uint64_t")

def numberFromStream (L : LexicalCast) (stringDoubles : Bool) (fuel : Nat) : Parser Variant := do
  if (← peek) = some minus then
    let b ← getChar
    numberFromStream.result L stringDoubles true (← numberFromStream.go fuel [b] false)
  else
    numberFromStream.result L stringDoubles false (← numberFromStream.go fuel [] false)

def tokenFromStream.go : Nat → (ss : Bytes) → Parser Bytes
  | 0, _         => throw .fuel
  | fuel + 1, ss => do
    let c ← peekChar
    if c ∈ ascii "nultrefas" then
      let b ← getChar
      go fuel (ss ++ [b])
    else
      return ss

-- A token that is none of the three is taken as the start of a string that is not quoted.
def tokenFromStream (fuel : Nat) : Parser Variant := do
  let str ← tokenFromStream.go fuel []
  if str = ascii "null" then return .null
  else if str = ascii "true" then return .bool true
  else if str = ascii "false" then return .bool false
  else return .string (str ++ (← stringFromToken fuel))

-- The characters a number starts with.
def startsNumber (c : UInt8) : Bool :=
  c = minus ∨ c = dot ∨ isDigit c

-- Entries are appended, whether or not there is one with the key.
def entryFromStream (variantFromStream : Parser Variant) (fuel : Nat)
    (obj : List (Bytes × Variant)) :
    Parser (List (Bytes × Variant)) := do
  let key ← stringFromStream fuel
  let _ ← skipWhiteSpace fuel
  if (← peek) ≠ some colon then
    throw (.parseError "Expected ':' after key")
  else
    let _ ← getc
    let val ← variantFromStream
    return obj ++ [(key, val)]

def objectFromStream (variantFromStream : UInt32 → Parser Variant) (fuel : Nat)
    (maxDepth : UInt32) :
    Parser (List (Bytes × Variant)) :=
  catchEof do
    let c ← peekChar
    if c ≠ openBrace then
      throw (.parseError "Expected '\x7b'")
    else
      let _ ← getc
      containerLoop closeBrace (entryFromStream (variantFromStream (maxDepth - 1))) fuel []

section Recursion

variable (L : LexicalCast) (stringDoubles : Bool)

-- The loop of `variant_from_stream`.
def variantSwitch (variantFromStream : UInt32 → Parser Variant) (maxDepth : UInt32) : Nat →
    Parser Variant
  | 0        => throw .fuel
  | fuel + 1 => do
    let c ← peekChar
    if isSpace c then
      let _ ← getc
      variantSwitch variantFromStream maxDepth fuel
    else if c = quote then
      return .string (← stringFromStream fuel)
    else if c = openBrace then
      return .object (← objectFromStream variantFromStream fuel (maxDepth - 1))
    else if c = openBracket then
      return .array (← arrayFromStream variantFromStream fuel (maxDepth - 1))
    else if startsNumber c then
      numberFromStream L stringDoubles fuel
    else if c ∈ ascii "ntf" then
      tokenFromStream fuel
    else if c = 0x04 ∨ c = 0xff ∨ c = 0 then
      throw (.eof "unexpected end of file")
    else
      let _ ← stringFromToken fuel
      throw (.parseError "Unexpected char")

-- `stack` bounds the calls of this function that are active at once.
def variantFromStream (fuel : Nat) : (stack : Nat) → (maxDepth : UInt32) → Parser Variant
  | 0, _                => throw .stack
  | stack + 1, maxDepth =>
    if maxDepth = 0 then
      throw (.parseError "Too many nested items in JSON input!")
    else do
      let _ ← skipWhiteSpace fuel
      variantSwitch L stringDoubles (variantFromStream fuel stack) maxDepth fuel

end Recursion

end Json
