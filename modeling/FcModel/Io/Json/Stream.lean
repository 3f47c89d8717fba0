import FcModel.Text.Basic

-- The stream that the parsers read from, and the functions that all of them use.

-- A `std::stringstream` that is read from: what is left of it, and the bit that is set by an
-- attempt to read beyond the end.
structure Stringstream where
  unread : Bytes
  eof    : Bool
deriving DecidableEq, Repr

namespace Json

open Ascii

-- The exceptions of the parsers. The last three are not thrown by the code. A run of this model is
-- given a bound on the rounds of each loop and a bound on the calls that are active at once, and
-- ends with `fuel` or `stack` when it exceeds one of them. `unclosed` is for the parser that tells
-- whether there are bounds that a run does not exceed.
inductive Error
  | eof (message : String)
  | parseError (message : String)
  | assertion (message : String)
  | fuel
  | stack
  | unclosed
deriving DecidableEq, Repr

-- A bound was exceeded.
def Error.Limit (e : Error) : Prop :=
  e = .fuel ∨ e = .stack

abbrev Parser := EStateM Error Stringstream

-- `none` is `EOF`.
def peek : Parser (Option UInt8) := do
  let s ← get
  match s.unread with
  | []     => set { s with eof := true }; return none
  | b :: _ => return some b

def getc : Parser (Option UInt8) := do
  let s ← get
  match s.unread with
  | []     => set { s with eof := true }; return none
  | b :: q => set { s with unread := q }; return some b

-- `EOF` is converted to a `char` as any other result is.
def peekChar : Parser UInt8 := do
  return (← peek).getD 0xff

def getChar : Parser UInt8 := do
  return (← getc).getD 0xff

section Stream

variable {b : UInt8} {q : Bytes} {e : Bool}

@[simp]
theorem peek_nil : peek.run ⟨[], e⟩ = .ok none ⟨[], true⟩ :=
  rfl

@[simp]
theorem peek_cons : peek.run ⟨b :: q, e⟩ = .ok (some b) ⟨b :: q, e⟩ :=
  rfl

@[simp]
theorem getc_nil : getc.run ⟨[], e⟩ = .ok none ⟨[], true⟩ :=
  rfl

@[simp]
theorem getc_cons : getc.run ⟨b :: q, e⟩ = .ok (some b) ⟨q, e⟩ :=
  rfl

@[simp]
theorem peekChar_nil : peekChar.run ⟨[], e⟩ = .ok 0xff ⟨[], true⟩ :=
  rfl

@[simp]
theorem peekChar_cons : peekChar.run ⟨b :: q, e⟩ = .ok b ⟨b :: q, e⟩ :=
  rfl

@[simp]
theorem getChar_nil : getChar.run ⟨[], e⟩ = .ok 0xff ⟨[], true⟩ :=
  rfl

@[simp]
theorem getChar_cons : getChar.run ⟨b :: q, e⟩ = .ok b ⟨q, e⟩ :=
  rfl

end Stream

def parseEscape : Parser UInt8 := do
  if (← peek) = some backslash then
    let _ ← getc
    let c ← peek
    if c = some 't'.toUInt8 then
      let _ ← getc
      return tab
    else if c = some 'n'.toUInt8 then
      let _ ← getc
      return newline
    else if c = some 'r'.toUInt8 then
      let _ ← getc
      return carriageReturn
    else if c = some backslash then
      let _ ← getc
      return backslash
    else
      getChar
  else
    throw (.parseError "Expected '\\'")

-- What the character after a backslash stands for.
def unescape (c : UInt8) : UInt8 :=
  if c = 't'.toUInt8 then tab
  else if c = 'n'.toUInt8 then newline
  else if c = 'r'.toUInt8 then carriageReturn
  else c

@[simp]
theorem parseEscape_nil {e : Bool} : parseEscape.run ⟨[backslash], e⟩ = .ok 0xff ⟨[], true⟩ :=
  rfl

@[simp]
theorem parseEscape_cons {c : UInt8} {q : Bytes} {e : Bool} :
    parseEscape.run ⟨backslash :: c :: q, e⟩ = .ok (unescape c) ⟨q, e⟩ := by
  simp only [parseEscape, EStateM.run_bind, peek_cons, if_pos, getc_cons, Option.some.injEq,
    unescape]
  split_ifs
  case pos h => rfl
  case pos h => rfl
  case pos h => rfl
  case pos h => rw [h]; rfl
  case neg h => rfl

def isSpace (c : UInt8) : Bool :=
  c = space ∨ c = tab ∨ c = newline ∨ c = carriageReturn

def skipWhiteSpace.go : Nat → (skipped : Bool) → Parser Bool
  | 0, _              => throw .fuel
  | fuel + 1, skipped => do
    match ← peek with
    | none   => return skipped
    | some c =>
      if isSpace c then
        let _ ← getc
        go fuel true
      else if c = 0 then
        throw (.eof "unexpected end of file")
      else
        return skipped

def skipWhiteSpace (fuel : Nat) : Parser Bool :=
  skipWhiteSpace.go fuel false

-- The characters of a string that is not quoted.
def isTokenChar (c : UInt8) : Bool :=
  isalnum c ∨ c ∈ ascii "_-.:/"

-- The exception at a NUL is caught by the function itself.
def stringFromToken.go : Nat → (token : Bytes) → Parser Bytes
  | 0, _            => throw .fuel
  | fuel + 1, token => do
    if (← get).eof then
      return token
    else
      let c ← peekChar
      if c = backslash then
        let e ← parseEscape
        go fuel (token ++ [e])
      else if c = tab ∨ c = space ∨ c = newline then
        let _ ← getc
        return token
      else if c = 0 then
        return token
      else if isTokenChar c then
        let _ ← getc
        go fuel (token ++ [c])
      else
        return token

def stringFromToken (fuel : Nat) : Parser Bytes := do
  let _ ← peekChar
  stringFromToken.go fuel []

-- `to_int64`, `to_uint64` and `to_double`.
def converted {α : Type} (v : Option α) (message : String) : Parser α :=
  match v with
  | some v => return v
  | none   => throw (.parseError message)

-- The loop over the elements of an array or the members of an object, which are read one by one
-- into `acc`. Commas are skipped wherever they stand.
def containerLoop {γ : Type} (close : UInt8) (item : Nat → γ → Parser γ) : Nat → (acc : γ) →
    Parser γ
  | 0, _          => throw .fuel
  | fuel + 1, acc => do
    let c ← peek
    if c = some close then
      let _ ← getc
      return acc
    else if c = some comma then
      let _ ← getc
      containerLoop close item fuel acc
    else if ← skipWhiteSpace fuel then
      containerLoop close item fuel acc
    else
      let acc ← item fuel acc
      containerLoop close item fuel acc

def elementFromStream (variantFromStream : Parser Variant) (fuel : Nat) (ar : List Variant) :
    Parser (List Variant) := do
  let v ← variantFromStream
  let _ ← skipWhiteSpace fuel
  return ar ++ [v]

-- The two functions of this name differ in the function they call for an element only. `max_depth`
-- is a `uint32_t`, so what is subtracted from it can wrap.
def arrayFromStream (variantFromStream : UInt32 → Parser Variant) (fuel : Nat) (maxDepth : UInt32) :
    Parser (List Variant) := do
  if (← peek) ≠ some openBracket then
    throw (.parseError "Expected '['")
  else
    let _ ← getc
    let _ ← skipWhiteSpace fuel
    containerLoop closeBracket (elementFromStream (variantFromStream (maxDepth - 1))) fuel []

-- The handler of the two functions `objectFromStream`.
def catchEof {α : Type} (x : Parser α) : Parser α := fun s =>
  match x s with
  | .error (.eof _) s => .error (.parseError "Unexpected EOF") s
  | r                 => r

end Json
