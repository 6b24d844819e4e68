import TraceCapture.Block.Lz4.Decode
import TraceCapture.Stream.Error

set_option autoImplicit false

namespace TraceCapture

inductive Corruption where
  | chunkTooLong
  | chunkTooLarge
  | blockWithoutSize
  | lengthMismatch
  | bufferTooSmall
  | blockTooLong
  | compressedTooLong
  | codec (text : String)
  deriving DecidableEq, Repr

def Corruption.message : Corruption → String
  | chunkTooLong => "chunk length exceeds maximum"
  | chunkTooLarge => "chunk decompresses past the maximum size"
  | blockWithoutSize => "block shorter than its size prefix"
  | lengthMismatch => "decompressed block length mismatch"
  | bufferTooSmall => "compression buffer too small"
  | blockTooLong => "block length does not fit in u32"
  | compressedTooLong => "compressed chunk too large"
  | codec text => text

/-- The largest number of bytes that a chunk may hold. It bounds what a reader decompresses, so a
bad length cannot ask for a huge buffer. -/
def maxChunkSize : Nat := 64 * 1024 * 1024

inductive TraceError where
  | io (cause : IoError)
  | outOfMemory (length : Nat)
  | invalidMagic
  | invalidChunkSize (size : Nat)
  | corrupt (cause : Corruption)
  | invalidOffset (chunk offset chunkLength : Nat)
  | compression
  | decompression (cause : Lz4.DecodeError)
  deriving DecidableEq, Repr

namespace TraceError

def message : TraceError → String
  | io cause => s!"io error: {cause.message}"
  | outOfMemory length => s!"out of memory allocating {length} bytes"
  | invalidMagic => "invalid trace file magic"
  | invalidChunkSize size => s!"invalid chunk size {size} (expected 1..={maxChunkSize})"
  | corrupt cause => s!"corrupt trace file: {cause.message}"
  | invalidOffset chunk offset chunkLength =>
      s!"offset {offset} is past the end of the {chunkLength}-byte chunk at {chunk}"
  | compression => "lz4 compression failed: output is too small for the compressed data, " ++
      "use get_maximum_output_size to reserve enough space"
  | decompression cause => s!"lz4 decompression failed: {cause.message}"

/-- The error as a byte stream reports it: a stream's own error comes out again, any other is bad
data. -/
def toIo : TraceError → IoError
  | io cause => cause
  | e => .invalidData e.message

end TraceError

end TraceCapture
