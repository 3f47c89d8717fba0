import FcModel.Io.Json.Legacy
import FcModel.Io.Json.Relaxed

-- `json::from_string` and `json::variants_from_string`.

namespace Json

inductive ParseType
  | legacyParser
  | strictParser
  | relaxedParser
  | legacyParserWithStringDoubles
deriving DecidableEq, Repr

abbrev Outcome (α : Type) := EStateM.Result Error Stringstream α

-- The parser that `from_string` chooses, with the bounds on its loops and on its calls.
def parser (L : LexicalCast) (fuel stack : Nat) (ptype : ParseType) (maxDepth : UInt32) :
    Parser Variant :=
  match ptype with
  | .legacyParser                  => variantFromStream L false fuel stack maxDepth
  | .legacyParserWithStringDoubles => variantFromStream L true fuel stack maxDepth
  | .strictParser                  => Relaxed.variantFromStream (Relaxed.reader L true fuel) fuel stack maxDepth
  | .relaxedParser                 => Relaxed.variantFromStream (Relaxed.reader L false fuel) fuel stack maxDepth

-- A loop consumes a character in each of its rounds but the last ones, and a call consumes a
-- bracket before it calls itself.
def fuelFor (str : Bytes) : Nat :=
  str.length + 3

def stackFor (str : Bytes) : Nat :=
  str.length + 1

def fromString (L : LexicalCast) (str : Bytes) (ptype : ParseType) (maxDepth : UInt32) :
    Outcome Variant :=
  (parser L (fuelFor str) (stackFor str) ptype maxDepth).run ⟨str, false⟩

-- The loop of `variants_from_string`, which ends with an exception that it catches. The type of the
-- parser is not used.
def variantsLoop (variantFromStream : Parser Variant) : Nat → (result : List Variant) →
    Parser (List Variant)
  | 0, _             => throw .fuel
  | fuel + 1, result => fun s =>
    match variantFromStream s with
    | .ok v s           => variantsLoop variantFromStream fuel (result ++ [v]) s
    | .error (.eof _) s => .ok result s
    | .error e s        => .error e s

def variantsFromString (L : LexicalCast) (fuel stack : Nat) (str : Bytes) (_ptype : ParseType)
    (maxDepth : UInt32) : Outcome (List Variant) :=
  (variantsLoop (Relaxed.variantFromStream (Relaxed.reader L false fuel) fuel stack maxDepth) fuel []).run
    ⟨str, false⟩

end Json
