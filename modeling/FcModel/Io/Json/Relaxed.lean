import FcModel.Io.Json.Stream

-- The parser of `json_relaxed.hpp`, which is behind `strict_parser` and `relaxed_parser`.

namespace Json.Relaxed

open Ascii

-- The characters of a token.
def isTokenChar (c : UInt8) : Bool :=
  isalnum c ∨ c ∈ ascii "_-.+/"

-- The characters that end a token and are consumed with it.
def isDelimiter (c : UInt8) : Bool :=
  c = tab ∨ c = space ∨ c = comma ∨ c = colon ∨ c = 0 ∨ c = newline ∨ c = 0x04

-- The exception at the end is caught by the function itself.
def tokenFromStream.go : Nat → (token : Bytes) → Parser Bytes
  | 0, _            => throw .fuel
  | fuel + 1, token => do
    let c ← peekChar
    if c = backslash then
      let e ← parseEscape
      go fuel (token ++ [e])
    else if isDelimiter c then
      let _ ← getc
      return token
    else if isTokenChar c then
      let _ ← getc
      go fuel (token ++ [c])
    else
      return token

def tokenFromStream (fuel : Nat) : Parser Bytes := do
  let _ ← peekChar
  tokenFromStream.go fuel []

section Strings

variable (allowEscape : Bool) (q : UInt8)

-- The first loop of `quoteStringFromStream`, for a string in triple quotes.
def tripleQuoteLoop : Nat → (token : Bytes) → Parser Bytes
  | 0, _            => throw .fuel
  | fuel + 1, token => do
    let c ← peekChar
    if c = q then
      let _ ← getc
      if (← peekChar) = q then
        let _ ← getc
        if (← peekChar) = q then
          let _ ← getc
          return token
        else
          tripleQuoteLoop fuel (token ++ [q, q])
      else
        tripleQuoteLoop fuel (token ++ [q])
    else if c = 0x04 then
      throw (.parseError "unexpected EOF in string")
    else if allowEscape ∧ c = backslash then
      let e ← parseEscape
      tripleQuoteLoop fuel (token ++ [e])
    else
      let _ ← getc
      tripleQuoteLoop fuel (token ++ [c])

-- The second loop of `quoteStringFromStream`.
def quoteLoop : Nat → (token : Bytes) → Parser Bytes
  | 0, _            => throw .fuel
  | fuel + 1, token => do
    let c ← peekChar
    if c = 0xff then
      throw (.eof "unexpected end of file")
    else if c = q then
      let _ ← getc
      return token
    else if c = 0x04 then
      throw (.parseError "unexpected EOF in string")
    else if allowEscape ∧ c = backslash then
      let e ← parseEscape
      quoteLoop fuel (token ++ [e])
    else if c = carriageReturn ∨ c = newline then
      throw (.parseError "unexpected EOL in string")
    else
      let _ ← getc
      quoteLoop fuel (token ++ [c])

end Strings

def quoteStringFromStream (strict allowEscape : Bool) (fuel : Nat) : Parser Bytes := do
  let q ← getChar
  if q = apostrophe ∧ strict then
    throw (.parseError "expected: '\"' at beginning of string, got '''")
  else if q ≠ apostrophe ∧ q ≠ quote then
    if strict then throw (.parseError "expected: '\"' at beginning of string")
    else throw (.parseError "expected: '\"' | '\\'' at beginning of string")
  else if (← peek) = some q then
    let _ ← getc
    if (← peek) ≠ some q then
      return []
    else if strict then
      throw (.parseError "triple quote unsupported in strict mode")
    else
      let _ ← getc
      tripleQuoteLoop allowEscape q fuel []
  else
    quoteLoop allowEscape q fuel []

def stringFromStream (strict : Bool) (fuel : Nat) : Parser Bytes := do
  let c ← peekChar
  if c = apostrophe ∧ strict then
    throw (.parseError "expected: '\"' at beginning of string, got '''")
  else if c = apostrophe ∨ c = quote then
    quoteStringFromStream strict true fuel
  else if c = 'r'.toUInt8 ∧ strict then
    throw (.parseError "raw strings not supported in strict mode")
  else if c = 'r'.toUInt8 ∨ c = 'R'.toUInt8 then
    let _ ← getc
    let c2 ← peekChar
    if c2 = quote ∨ c2 = apostrophe then
      if strict then throw (.parseError "raw strings not supported in strict mode")
      else quoteStringFromStream strict false fuel
    else if strict then
      throw (.parseError "unquoted strings not supported in strict mode")
    else
      return c :: (← tokenFromStream fuel)
  else if isTokenChar c then
    if strict then throw (.parseError "unquoted strings not supported in strict mode")
    else tokenFromStream fuel
  else if c = 0xff then
    throw (.eof "unexpected end of file")
  else
    throw (.parseError "expected: string")

section Numbers

-- `CharValueTable`.
def charValue (c : UInt8) : UInt8 :=
  if isDigit c then c - 0x30
  else if 0x61 ≤ c ∧ c ≤ 0x7a then c - 0x61 + 10
  else if 0x41 ≤ c ∧ c ≤ 0x5a then c - 0x41 + 10
  else 0xff

-- The loop of `parseInt` over the characters from `i` on. A digit is not compared with the base.
def parseInt.go (base : UInt64) : (val : UInt64) → Bytes → Except Error UInt64
  | val, []      => return val
  | val, c :: ds => do
    let vc := charValue c
    if vc = 0xff then throw (.parseError "illegal character in integer")
    else if 0xffffffffffffffff / base < val then throw (.parseError "integer literal overflow")
    else
      let val := val * base
      let newval := val + vc.toUInt64
      if newval < val then throw (.parseError "integer literal overflow")
      else go base newval ds

def int64MaxPlusOne : UInt64 := 0x8000000000000000

-- `ds` are the characters of the token from `start` on.
def parseInt (base : UInt64) (token ds : Bytes) : Except Error Variant := do
  if ds = [] then throw (.parseError "zero-length integer")
  else
    let val ← parseInt.go base 0 ds
    if token.head? = some minus then
      if int64MaxPlusOne < val then throw (.parseError "negative integer literal overflow")
      else if val = int64MaxPlusOne then return .int64 (.ofInt (-2 ^ 63))
      else return .int64 (-val.toInt64)
    else
      return .uint64 val

-- A parse error is only caught if the parser is not strict.
def maybeParseInt (strict : Bool) (base : UInt64) (token ds : Bytes) : Except Error Variant :=
  match parseInt base token ds with
  | .error (.parseError m) => if strict then .error (.parseError m) else .ok (.string token)
  | r                      => r

-- What is not a number is an error in strict mode, and a string otherwise.
def notNumber (strict : Bool) (token : Bytes) (message : String) : Except Error Variant :=
  if strict then throw (.parseError message) else return .string token

def illegal : Except Error Variant :=
  throw (.parseError "illegal character in token")

def toDouble (L : LexicalCast) (token : Bytes) : Except Error Variant :=
  match L.toDouble (token.takeWhile (· ≠ 0)) with
  | some d => return .double d
  | none   => throw (.parseError "Couldn't parse double")

variable (L : LexicalCast) (strict : Bool) (token : Bytes)

-- The digits of an exponent. A character that cannot be part of a token is skipped.
def exponentDigits : Bytes → Except Error Variant
  | []     => toDouble L token
  | c :: r =>
    if isDigit c then exponentDigits r
    else if isTokenChar c then notNumber strict token "illegal character in number"
    else exponentDigits r

-- What follows `e` or `E`.
def exponent : Bytes → Except Error Variant
  | []     => notNumber strict token "expected exponent after 'e'|'E' parsing number"
  | c :: r =>
    if c = plus ∨ c = minus then
      if r = [] then notNumber strict token "expected exponent" else exponentDigits L strict token r
    else if isDigit c then exponentDigits L strict token r
    else if isTokenChar c then notNumber strict token "illegal character in number"
    else illegal

-- The loop after the first digit, which is the first one of `ds`. What the code has after the
-- `return` for a point is never reached.
def numberLoop (ds : Bytes) : Bytes → Except Error Variant
  | []     => parseInt 10 token ds
  | c :: r =>
    if isDigit c then numberLoop ds r
    else if c = dot then return .string token
    else if c = 'e'.toUInt8 ∨ c = 'E'.toUInt8 then exponent L strict token r
    else if isTokenChar c then notNumber strict token "illegal character parsing number"
    else throw (.parseError "illegal character in number")

-- What follows a zero, up to the end of the token. A binary literal loses its first digit.
def afterZero (ds : Bytes) : Bytes → Except Error Variant
  | []     => return .uint64 0
  | d :: r =>
    if d = 'b'.toUInt8 ∨ d = 'B'.toUInt8 then
      if strict then throw (.parseError "binary numeric literals not supported in strict mode")
      else if r = [] then throw (.parseError "empty binary numeric literal")
      else maybeParseInt strict 2 token r.tail
    else if d = 'o'.toUInt8 ∨ d = 'O'.toUInt8 then
      if strict then throw (.parseError "octal numeric literals not supported in strict mode")
      else maybeParseInt strict 8 token r
    else if d = 'x'.toUInt8 ∨ d = 'X'.toUInt8 then
      if strict then throw (.parseError "hex numeric literals not supported in strict mode")
      else maybeParseInt strict 16 token r
    else if strict ∧ ¬(d = dot ∨ d = 'e'.toUInt8 ∨ d = 'E'.toUInt8) then
      throw (.parseError "expected '.'|'e'|'E' parsing number")
    else
      numberLoop L strict token ds (d :: r)

-- The characters after the sign. At the end of the token there is a NUL.
def unsignedNumber : Bytes → Except Error Variant
  | []     => illegal
  | c :: r =>
    if c = zero then afterZero L strict token (c :: r) r
    else if isDigit c then numberLoop L strict token (c :: r) r
    else if isTokenChar c then notNumber strict token "illegal character parsing number"
    else illegal

def parseNumberOrStr : Except Error Variant :=
  match token with
  | []     => throw (.parseError "expected: non-empty token, got: empty token")
  | c :: r =>
    if c = plus ∧ strict then throw (.parseError "unary + not supported in strict mode")
    else if c = plus ∨ c = minus then unsignedNumber L strict token r
    else unsignedNumber L strict token (c :: r)

end Numbers

def isNumber : Variant → Bool
  | .int64 _ | .uint64 _ | .double _ => true
  | _                                => false

def numberFromStream (L : LexicalCast) (strict : Bool) (fuel : Nat) : Parser Variant := do
  let token ← tokenFromStream fuel
  match parseNumberOrStr L strict token with
  | .error e   => throw e
  | .ok result =>
    if strict ∧ !isNumber result then throw (.parseError "expected: number")
    else return result

def wordFromStream (strict : Bool) (fuel : Nat) : Parser Variant := do
  let token ← tokenFromStream fuel
  if token.length = 0 then throw (.assertion "token.length() > 0")
  else if token = ascii "null" then return .null
  else if token = ascii "true" then return .bool true
  else if token = ascii "false" then return .bool false
  else if strict then throw (.parseError "expected: null|true|false")
  else return .string token

-- The functions that a parser reads strings, numbers and words with. It is only in these that the
-- strict parser and the relaxed one differ.
structure Reader where
  string : Parser Bytes
  number : Parser Variant
  word   : Parser Variant

def reader (L : LexicalCast) (strict : Bool) (fuel : Nat) : Reader where
  string := stringFromStream strict fuel
  number := numberFromStream L strict fuel
  word   := wordFromStream strict fuel

-- Entries are appended, whether or not there is one with the key.
def entryFromStream (stringFromStream : Parser Bytes) (variantFromStream : Parser Variant)
    (fuel : Nat)
    (obj : List (Bytes × Variant)) : Parser (List (Bytes × Variant)) := do
  let key ← stringFromStream
  let _ ← skipWhiteSpace fuel
  if (← peek) ≠ some colon then
    throw (.parseError "Expected ':' after key")
  else
    let _ ← getc
    let val ← variantFromStream
    let _ ← skipWhiteSpace fuel
    return obj ++ [(key, val)]

def objectFromStream (stringFromStream : Parser Bytes) (variantFromStream : UInt32 → Parser Variant)
    (fuel : Nat) (maxDepth : UInt32) : Parser (List (Bytes × Variant)) :=
  catchEof do
    let c ← peekChar
    if c ≠ openBrace then
      throw (.parseError "Expected '\x7b'")
    else
      let _ ← getc
      let _ ← skipWhiteSpace fuel
      containerLoop closeBrace (entryFromStream stringFromStream (variantFromStream (maxDepth - 1))) fuel []

-- The characters a number starts with.
def startsNumber (c : UInt8) : Bool :=
  c = minus ∨ c = plus ∨ c = dot ∨ isDigit c

-- The loop of `variant_from_stream`.
def variantSwitch (r : Reader) (variantFromStream : UInt32 → Parser Variant) (maxDepth : UInt32) :
    Nat → Parser Variant
  | 0        => throw .fuel
  | fuel + 1 => do
    let c ← peekChar
    if c = 0 then
      return .null
    else if isSpace c then
      let _ ← getc
      variantSwitch r variantFromStream maxDepth fuel
    else if c = quote then
      return .string (← r.string)
    else if c = openBrace then
      return .object (← objectFromStream r.string variantFromStream fuel (maxDepth - 1))
    else if c = openBracket then
      return .array (← arrayFromStream variantFromStream fuel (maxDepth - 1))
    else if startsNumber c then
      r.number
    else if isTokenChar c then
      r.word
    else if c = 0x04 ∨ c = 0xff then
      throw (.eof "unexpected end of file")
    else
      let _ ← stringFromToken fuel
      throw (.parseError "Unexpected char")

-- `stack` bounds the calls of this function that are active at once.
def variantFromStream (r : Reader) (fuel : Nat) : (stack : Nat) → (maxDepth : UInt32) →
    Parser Variant
  | 0, _                => throw .stack
  | stack + 1, maxDepth => do
    let _ ← skipWhiteSpace fuel
    variantSwitch r (variantFromStream r fuel stack) maxDepth fuel

end Json.Relaxed
