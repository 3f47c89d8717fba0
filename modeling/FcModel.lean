import FcModel.Lib.Keccak
import FcModel.Lib.Loop
import FcModel.Lib.Machine
import FcModel.Lib.Run
import FcModel.Lib.Fifo
import FcModel.Lib.Blocks
import FcModel.Lib.Decoder
import FcModel.Lib.Encoder
import FcModel.Lib.Codec
import FcModel.Lib.MultiIndex
import FcModel.Lib.Sax
import FcModel.Variant.Basic
import FcModel.Variant.Equality
import FcModel.Variant.StaticVariant
import FcModel.Variant.Arithmetic
import FcModel.Variant.FormatString
import FcModel.Variant.FormatLimit
import FcModel.Variant.Object
import FcModel.Variant.Dictionary
import FcModel.Variant.Shared
import FcModel.Variant.Contents
import FcModel.Variant.CopyOnWrite
import FcModel.Uint128.Basic
import FcModel.Uint128.Arithmetic
import FcModel.Uint128.Division
import FcModel.Uint128.Product
import FcModel.Utf8.Basic
import FcModel.Utf8.Decode
import FcModel.Utf8.Encode
import FcModel.Utf8.Prune
import FcModel.Text.Basic
import FcModel.Crypto.Base64
import FcModel.Crypto.Webauthn.Handler
import FcModel.Crypto.Webauthn.Extraction
import FcModel.Crypto.Sha3.Basic
import FcModel.Crypto.Sha3.Correctness
import FcModel.Crypto.Sha3.Permutation
import FcModel.Crypto.Webauthn.PublicKey
import FcModel.Io.Json.Generator
import FcModel.Io.Json.Escape
import FcModel.Io.Json.Stream
import FcModel.Io.Json.Legacy
import FcModel.Io.Json.Relaxed
import FcModel.Io.Json.Parse
import FcModel.Io.Json.Progress
import FcModel.Io.Json.Monotone
import FcModel.Io.Json.Sublanguage
import FcModel.Io.Json.Termination
import FcModel.Io.Json.Grammar
import FcModel.Io.Json.Dialects
import FcModel.Io.Json.Meaning
import FcModel.Io.Json.Reading
import FcModel.Io.Json.Scalars
import FcModel.Io.Json.Values
import FcModel.Io.Json.Completeness
import FcModel.Io.Json.RoundTrip
import FcModel.Io.Json.Unescape
import FcModel.Io.Json.Depth
import FcModel.Io.Json.Numbers
import FcModel.Io.Json.Soundness
import FcModel.Io.Json.Layout
import FcModel.Io.Json.Pretty
import FcModel.Io.Json.Relayout
import FcModel.Io.Json.Length
import FcModel.Io.Json.Documents
import FcModel.Io.Json.Integers
import FcModel.Io.Json.Keys
import FcModel.Raw.Scalar
import FcModel.Io.Datastream
import FcModel.Raw.Varint
import FcModel.Crypto.Hex
import FcModel.Crypto.Base58
import FcModel.Crypto.Suite
import FcModel.Crypto.Keys
import FcModel.Variant.ByteVector
import FcModel.Io.Pointers
import FcModel.Raw.Variant
import FcModel.Raw.Container
import FcModel.Raw.Codec.Basic
import FcModel.Raw.Codec.Allocation
import FcModel.Raw.Codec.Progress
import FcModel.Raw.Codec.TwoPass
import FcModel.Raw.Codec.RoundTrip
import FcModel.Raw.BoostVector
import FcModel.Raw.Lookup
import FcModel.Raw.Codec.Zero
import FcModel.Raw.Codec.Defaults
import FcModel.Raw.Codec.Destination
import FcModel.Container.TrackedStorage
import FcModel.Container.Persistence
import FcModel.Network.MessageBuffer.Basic
import FcModel.Network.MessageBuffer.Invariant
import FcModel.Network.MessageBuffer.Operations
import FcModel.Network.MessageBuffer.Refinement
import FcModel.Network.MessageBuffer.Atomic
import FcModel.Network.MessageBuffer.Datastream
import FcModel.Network.MessageBuffer.Skip
import FcModel.Raw.Codec.Streams
import FcModel.Lib.IntegerType
import FcModel.Safe.Arithmetic
import FcModel.Uint128.Text
import FcModel.Crypto.Bigint
import FcModel.Real128.Text
import FcModel.Crypto.Base58.Sizes
import FcModel.Crypto.Base36
import FcModel.Crypto.Base64.RoundTrip
import FcModel.Variant.Blob
import FcModel.Compress.Smaz.Codebook
import FcModel.Compress.Smaz
import FcModel.Compress.Smaz.RoundTrip
import FcModel.Compress.Smaz.Reads
import FcModel.Crypto.Wif
import FcModel.Lib.Comparator
import FcModel.Crypto.KeyOrder
import FcModel.Crypto.Webauthn.Origin
import FcModel.Crypto.Hmac
import FcModel.Crypto.ModularArithmetic
import FcModel.Lib.Pieces
import FcModel.Log.GelfAppender
import FcModel.Lib.Blake2
import FcModel.Crypto.Blake2
import FcModel.Lib.Except
import FcModel.Lib.Find
import FcModel.Network.Url
import FcModel.Crypto.DigestCommon
import FcModel.Lib.ApproxLog
import FcModel.Crypto.Sha256
import FcModel.Text.Digits
import FcModel.Time
import FcModel.Raw.Varint.Minimal
import FcModel.Raw.FixedString
import FcModel.Crypto.DigestCommon.Buffers
import FcModel.Utf8.CodePoints
import FcModel.Io.Json.Conformity
import FcModel.Lib.Traverse
import FcModel.Variant.Typed
import FcModel.Io.Json.Typed
import FcModel.Lib.BlockCipher
import FcModel.Crypto.Blowfish.Tables
import FcModel.Crypto.Blowfish
import FcModel.Crypto.Blowfish.Modes
import FcModel.Container.BloomFilter
import FcModel.Container.BloomFilter.Bits
import FcModel.Container.BloomFilter.Bounds
import FcModel.Container.BloomFilter.Runs
import FcModel.Log.Message
import FcModel.Exception
import FcModel.Exception.Json
import FcModel.Log.Logger.Runs
import FcModel.Lib.Ecdsa
import FcModel.Crypto.Elliptic.Data
import FcModel.Crypto.Elliptic.R1
import FcModel.Crypto.Elliptic.R1.Recovery
import FcModel.Crypto.Elliptic.K1
import FcModel.Crypto.Elliptic.Keys
import FcModel.Crypto.Elliptic.Assertion
