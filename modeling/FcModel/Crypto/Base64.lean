import FcModel.Lib.IntegerType
import FcModel.Text.Basic

-- `fc::base64_encode` and `fc::base64_decode`, and the same for the alphabet of base64url.

namespace Base64

def base64Chars : Bytes :=
  ascii "ABCDEFGHIJKLMNOPQRSTUVWXYZabcdefghijklmnopqrstuvwxyz0123456789+/"

-- The four indices that three bytes are turned into.
def indices (a b c : UInt8) : List UInt8 :=
  [(a &&& 0xfc) >>> 2, ((a &&& 0x03) <<< 4) + ((b &&& 0xf0) >>> 4),
    ((b &&& 0x0f) <<< 2) + ((c &&& 0xc0) >>> 6), c &&& 0x3f]

def digits (chars : Bytes) (is : List UInt8) : Bytes :=
  is.map fun i => chars.getD i.toNat 0

-- What is missing from the last group is taken as zero, and marked by padding.
def base64EncodeImpl (chars : Bytes) : Bytes → Bytes
  | []               => []
  | [a]              => digits chars ((indices a 0 0).take 2) ++ ascii "=="
  | [a, b]           => digits chars ((indices a b 0).take 3) ++ ascii "="
  | a :: b :: c :: q => digits chars (indices a b c) ++ base64EncodeImpl chars q

-- The length is passed as an `unsigned int`.
def base64Encode (bytes : Bytes) : Bytes :=
  base64EncodeImpl base64Chars (bytes.take (bytes.length % 2 ^ 32))

def base64urlChars : Bytes :=
  ascii "ABCDEFGHIJKLMNOPQRSTUVWXYZabcdefghijklmnopqrstuvwxyz0123456789-_"

def base64urlEncode (bytes : Bytes) : Bytes :=
  base64EncodeImpl base64urlChars (bytes.take (bytes.length % 2 ^ 32))

-- `throw_on_nonbase64`.
def isBase64 (chars : Bytes) (c : UInt8) : Bool :=
  Ascii.isalnum c ∨ c = chars.getD 62 0 ∨ c = chars.getD 63 0

-- `strchr(b64_chars, c) - b64_chars`: the terminating NUL is found too.
def sextet (chars : Bytes) (c : UInt8) : UInt8 :=
  .ofNat (chars.idxOf c)

-- The three bytes that four indices are turned into.
def octets (a b c d : UInt8) : Bytes :=
  [(a <<< 2) + ((b &&& 0x30) >>> 4), ((b &&& 0xf) <<< 4) + ((c &&& 0x3c) >>> 2),
    ((c &&& 0x3) <<< 6) + d]

def decodeGroup (chars : Bytes) (a b c d : UInt8) : Bytes :=
  octets (sextet chars a) (sextet chars b) (sextet chars c) (sextet chars d)

-- What is missing from the last group is taken as NUL.
def decodeGroups (chars : Bytes) : Bytes → Bytes
  | []                    => []
  | [_]                   => []
  | [a, b]                => (decodeGroup chars a b 0 0).take 1
  | [a, b, c]             => (decodeGroup chars a b c 0).take 2
  | a :: b :: c :: d :: q => decodeGroup chars a b c d ++ decodeGroups chars q

abbrev padding : UInt8 := 0x3d

def notBase64 : String :=
  "encountered non-base64 character"

-- An `int` that overflows, of which the behaviour is undefined.
def intOverflow : String :=
  "signed integer overflow"

-- `while( in_len-- && encoded_string[in_] != '=' )`: the characters that are decoded. The character
-- behind the last one is a NUL.
def collect (chars : Bytes) (inLen : Int) : Bytes → Except String Bytes
  | []     =>
    if inLen = 0 then .ok []
    else if IntegerType.int.arith (inLen - 1) = none then .error intOverflow
    else .error notBase64
  | c :: q =>
    if inLen = 0 then .ok []
    else
      match IntegerType.int.arith (inLen - 1) with
      | none       => .error intOverflow
      | some inLen =>
        if c = padding then .ok []
        else if isBase64 chars c then (collect chars inLen q).map (c :: ·)
        else .error notBase64

-- The length is an `int`.
def base64DecodeImpl (chars encoded : Bytes) : Except String Bytes :=
  (collect chars (IntegerType.int.convert encoded.length) encoded).map (decodeGroups chars)

def base64Decode (encoded : Bytes) : Except String Bytes :=
  base64DecodeImpl base64Chars encoded

def base64urlDecode (encoded : Bytes) : Except String Bytes :=
  base64DecodeImpl base64urlChars encoded

end Base64
