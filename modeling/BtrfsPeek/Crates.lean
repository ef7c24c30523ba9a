import BtrfsPeek.Lib.Utf8

/-!
# The crates

What the program calls that is not its own: checksums, the three decoders,
globs, and signatures. A development about the program holds for whatever these
compute.
-/

namespace BtrfsPeek

/-- A decoder reading its input to the end: the bytes it gives, and the error
it stops at, if it does. -/
structure Decoding where
  data : Bytes
  failure : Option String
  deriving DecidableEq, Repr

/-- What `lzokay_native::decompress_all` does with a segment. -/
inductive LzoOutcome
  | plain (data : Bytes)
  | failed (text : String)
  | panicked
  deriving DecidableEq, Repr

/-- The third-party functions. -/
structure Crates where
  /-- `crc32c::crc32c_append`; `crc32c::crc32c` starts it from 0. -/
  crc32cAppend : Nat → Bytes → Nat
  /-- `flate2::read::ZlibDecoder`. -/
  zlib : Bytes → Decoding
  /-- `ruzstd::decoding::StreamingDecoder`; making it may fail. -/
  zstd : Bytes → Except String Decoding
  /-- `lzokay_native::decompress_all` with a limit on the output. -/
  lzo : Bytes → Nat → LzoOutcome
  /-- `globset::Glob::new` and the matcher it compiles to. -/
  glob : Text → Except String (Text → Bool)
  /-- `{:?}` of a string, whose escapes follow tables of Unicode. -/
  debugStr : Text → String

def Crates.crc32c (X : Crates) (b : Bytes) : Nat := X.crc32cAppend 0 b

end BtrfsPeek
