import FcModel.Compress.Smaz.Codebook
import FcModel.Lib.Except
import FcModel.Lib.IntegerType

-- `fc::smaz_compress` and `fc::smaz_decompress`.

namespace Smaz

-- The ways in which the functions do not return: memory outside of a buffer is read or written, an
-- `int` overflows, or `FC_ASSERT` throws.
inductive Error
  | read
  | write
  | overflow
  | assert
deriving DecidableEq, Repr

def arith (x : Int) : Except Error Int :=
  match IntegerType.int.arith x with
  | some x => .ok x
  | none   => .error .overflow

section Compression

-- A `char`, which is signed, as an `unsigned int`.
def extend (c : UInt8) : UInt32 :=
  c.toInt8.toInt32.toUInt32

-- Looks for the `j` bytes at `inp` in a slot.
def lookup (j : Nat) (inp : Bytes) : Bytes → Option UInt8
  | []        => none
  | l :: slot =>
    if l.toNat = j ∧ slot.take j = inp.take j then some (slot.getD j 0)
    else lookup j inp (slot.drop (l.toNat + 1))
termination_by slot => slot.length

def slotAt (h : UInt32) : Bytes :=
  cb.getD (h % 241).toNat []

-- `for( ; j > 0; j-- )`, with the code that is found.
def search (h1 h2 h3 : UInt32) (inp : Bytes) : Nat → Option (Nat × UInt8)
  | 0     => none
  | j + 1 =>
    let h := match j + 1 with | 1 => h1 | 2 => h2 | _ => h3
    match lookup (j + 1) inp (slotAt h) with
    | some code => some (j + 1, code)
    | none      => search h1 h2 h3 inp j

-- The pointers `in` and `out` are the bytes that are left and an index of the output.
structure State where
  inp    : Bytes
  inlen  : Int
  h3     : UInt32
  verb   : Bytes
  out    : Nat
  outlen : Int
  mem    : Bytes

def needed (verblen : Nat) : Nat :=
  if verblen = 1 then 2 else 2 + verblen

-- What is written for the verbatim bytes.
def flushed (verb : Bytes) : Bytes :=
  if verb.length = 1 then 254 :: verb else 255 :: .ofNat (verb.length - 1) :: verb

def write (mem : Bytes) (pos : Nat) (bytes : Bytes) : Except Error Bytes :=
  if pos + bytes.length ≤ mem.length
  then .ok (mem.take pos ++ bytes ++ mem.drop (pos + bytes.length))
  else .error .write

def push (verb : Bytes) (c : UInt8) : Except Error Bytes :=
  if verb.length < 256 then .ok (verb ++ [c]) else .error .write

-- `if( flush )`.
def flush (mem : Bytes) (pos : Nat) (verb : Bytes) : Except Error Bytes :=
  if verb.length ≠ 0 then write mem pos (flushed verb) else .ok mem

-- A round of the loop either goes on, or returns as the output is too short.
inductive Round
  | next (s : State)
  | full (mem : Bytes)

-- A match: the verbatim bytes are flushed before its code, if there are any.
def matched (s : State) (h3 : UInt32) (j : Nat) (code : UInt8) : Except Error Round := do
  let needed := if s.verb.length ≠ 0 then needed s.verb.length else 0
  let outlen ← arith (s.outlen - needed)
  if outlen ≤ 0 then return .full s.mem
  else
    let mem ← write s.mem (s.out + needed) [code]
    let mem ← flush mem s.out s.verb
    return .next
      { s with
        inp := s.inp.drop j, inlen := s.inlen - j, h3, verb := [], out := s.out + needed + 1,
        outlen := outlen - 1, mem }

-- No match: a verbatim byte, after which the verbatim bytes are flushed if there is no room for
-- another one, or none comes.
def unmatched (s : State) (h3 : UInt32) (c : UInt8) (inp : Bytes) : Except Error Round := do
  let verb ← push s.verb c
  let inlen ← arith (s.inlen - 1)
  if verb.length = 256 ∨ 0 < verb.length ∧ inlen = 0 then
    let outlen ← arith (s.outlen - needed verb.length)
    if outlen < 0 then return .full s.mem
    else
      let mem ← write s.mem s.out (flushed verb)
      return .next
        { s with inp, inlen, h3, verb := [], out := s.out + needed verb.length, outlen, mem }
  else return .next { s with inp, inlen, h3, verb }

def round (s : State) : Except Error Round :=
  match s.inp with
  | []       => .error .read
  | c :: inp =>
    let h1 := extend c <<< 3
    let h2 := if 1 < s.inlen then h1 + extend (inp.getD 0 0) else h1
    let h3 := if 2 < s.inlen then h2 ^^^ extend (inp.getD 1 0) else s.h3
    match search h1 h2 h3 s.inp (min 7 s.inlen).toNat with
    | some (j, code) => matched s h3 j code
    | none           => unmatched s h3 c inp

theorem search_pos {h1 h2 h3 : UInt32} {inp : Bytes} {n j : Nat} {code : UInt8}
    (h : search h1 h2 h3 inp n = some (j, code)) : 0 < j := by
  induction n
  case zero      => cases h
  case succ n hi =>
    rw [search] at h
    split at h
    case h_1 =>
      cases h
      exact Nat.succ_pos n
    case h_2 => exact hi h

theorem matched_inp {s t : State} {h3 : UInt32} {j : Nat} {code : UInt8}
    (h : matched s h3 j code = .ok (.next t)) : t.inp = s.inp.drop j := by
  obtain ⟨outlen, -, h⟩ := Except.bind_eq_ok h
  split at h
  case isTrue  => cases h
  case isFalse =>
    obtain ⟨_, -, h⟩ := Except.bind_eq_ok h
    obtain ⟨_, -, h⟩ := Except.bind_eq_ok h
    cases h
    rfl

theorem unmatched_inp {s t : State} {h3 : UInt32} {c : UInt8} {inp : Bytes}
    (h : unmatched s h3 c inp = .ok (.next t)) : t.inp = inp := by
  obtain ⟨verb, -, h⟩ := Except.bind_eq_ok h
  obtain ⟨inlen, -, h⟩ := Except.bind_eq_ok h
  split at h
  case isTrue =>
    obtain ⟨outlen, -, h⟩ := Except.bind_eq_ok h
    split at h
    case isTrue  => cases h
    case isFalse =>
      obtain ⟨_, -, h⟩ := Except.bind_eq_ok h
      cases h
      rfl
  case isFalse =>
    cases h
    rfl

-- A round takes a byte at least.
theorem round_length {s t : State} (h : round s = .ok (.next t)) : t.inp.length < s.inp.length := by
  rw [round] at h
  split at h
  case h_1 => cases h
  case h_2 c inp hinp =>
    dsimp only at h
    split at h
    case h_1 j code hs =>
      have hj := search_pos hs
      rw [matched_inp h, List.length_drop, hinp, List.length_cons]
      omega
    case h_2 =>
      rw [unmatched_inp h, hinp]
      exact Nat.lt_succ_self _

-- `while( inlen )`.
def loop (s : State) : Except Error Round :=
  if s.inlen = 0 then .ok (.next s)
  else
    match _h : round s with
    | .ok (.next t) => loop t
    | r             => r
termination_by s.inp.length
decreasing_by exact round_length _h

-- The value that is returned, and the output.
def smazCompress (inp : Bytes) (inlen : Int) (out : Bytes) (outlen : Int) :
    Except Error (UInt32 × Bytes) := do
  match ← loop ⟨inp, inlen, 0, [], 0, outlen, out⟩ with
  | .next s   => return (.ofNat s.out, s.mem)
  | .full mem => return (.ofInt (← arith (outlen + 1)), mem)

-- The function of strings. The C string has a NUL behind it.
def compress (inp : Bytes) : Except Error Bytes := do
  let out : Bytes := .replicate inp.length 0
  let (outLen, out) ← smazCompress (inp ++ [0]) (IntegerType.int.convert inp.length)
    out (IntegerType.int.convert out.length)
  if outLen.toNat ≤ out.length then return out.take outLen.toNat else throw .assert

end Compression

section Decompression

-- `while( inlen )`, with what is appended to the stream.
def decompressLoop (c : Bytes) (inlen : UInt32) : Except Error Bytes :=
  if inlen = 0 then .ok []
  else
    match c with
    | []       => .error .read
    | b :: c =>
      if b = 254 then
        match c with
        | []     => .error .read
        | v :: c => do return v :: (← decompressLoop c (inlen - 2))
      else if b = 255 then
        match c with
        | []     => .error .read
        | l :: c =>
          let len := l.toNat + 1
          if c.length < len then .error .read
          else do return c.take len ++ (← decompressLoop (c.drop len) (inlen - 2 - .ofNat len))
      else do return rcb.getD b.toNat [] ++ (← decompressLoop c (inlen - 1))
termination_by c.length

def decompress (compressed : Bytes) : Except Error Bytes :=
  decompressLoop (compressed ++ [0]) (.ofNat compressed.length)

end Decompression

end Smaz
