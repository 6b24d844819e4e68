import TraceCapture.Block.Lz4.Encode
import TraceCapture.Bytes
import TraceCapture.Trace.Error
import TraceCapture.Word

set_option autoImplicit false

namespace TraceCapture

/-- What decoding a block gave: the bytes written to the front of the buffer, and how it ended. -/
structure Decoding where
  output : ByteArray
  ending : Outcome TraceError Unit

structure Codec where
  maxCompressedSize : Nat → Nat
  /-- `compress call data room` is the block of `data`, if it fits into `room` bytes. -/
  compress : Nat → ByteArray → Nat → Except TraceError ByteArray
  decompressedSize : ByteArray → Except TraceError Nat
  /-- `decompress call block room` decodes `block` into a buffer of `room` bytes. -/
  decompress : Nat → ByteArray → Nat → Decoding

namespace Codec

/-- A codec that gives back what it was given, on every call, within the sizes it promises. -/
structure Lawful (c : Codec) : Prop where
  mono : ∀ m n, m ≤ n → c.maxCompressedSize m ≤ c.maxCompressedSize n
  max_lt : c.maxCompressedSize maxChunkSize < Bytes.u32Limit
  compress_ok : ∀ call data room, 0 < data.size → data.size ≤ maxChunkSize →
    c.maxCompressedSize data.size ≤ room → ∃ block, c.compress call data room = .ok block
  compress_size : ∀ call data room block, 0 < data.size → c.compress call data room = .ok block →
    0 < block.size ∧ block.size ≤ c.maxCompressedSize data.size
  decompressedSize_compress : ∀ call data room block, 0 < data.size →
    c.compress call data room = .ok block → c.decompressedSize block = .ok data.size
  decompress_compress : ∀ call call' data room block, 0 < data.size →
    c.compress call data room = .ok block → c.decompress call' block data.size = ⟨data, .ok ()⟩

theorem Lawful.buffer_lt {c : Codec} (h : c.Lawful) {n : Nat} (hn : n ≤ maxChunkSize) :
    c.maxCompressedSize n < Bytes.bufferLimit :=
  Nat.lt_of_le_of_lt (h.mono _ _ hn) (Nat.lt_trans h.max_lt (by decide))

def Returns (c : Codec) (limit : Nat) : Prop :=
  ∀ call block room, block.size ≤ limit → ∀ v, (c.decompress call block room).ending ≠ .panicked v

def withMaxSize (c : Codec) (max : Nat) : Codec :=
  { c with maxCompressedSize := fun _ => max }

def refusing (c : Codec) (n : Nat) : Codec :=
  { c with
    compress := fun call data room =>
      if call + 1 = n then .error (.corrupt (.codec "codec refused to compress"))
      else c.compress call data room }

end Codec

def sizeOfBlock (short : Corruption) (block : ByteArray) : Except TraceError Nat :=
  match Bytes.toU32? block with
  | some n => .ok n
  | none => .error (.corrupt short)

namespace Lz4

def compress (data : ByteArray) (room : Nat) : Except TraceError ByteArray :=
  if Bytes.u32Limit ≤ data.size then .error (.corrupt .blockTooLong)
  else if room < 4 then .error (.corrupt .bufferTooSmall)
  else if room - 4 < maxEncodedSize data.size then .error .compression
  else .ok (Bytes.ofU32 data.size ++ encode data)

/-- The size that no block of `n` bytes exceeds, computed in 64 bits: of a size whose product with
110 leaves that range, a checked build has no answer and an unchecked one a wrong answer. -/
def maxBlockSize (p : Profile) (n : Nat) : Except Violation Nat :=
  (Word.mul p n 110).map fun scaled => 4 + (16 + 4 + scaled / 100)

theorem maxBlockSize_of_lt {p : Profile} {n : Nat} (h : n * 110 < Word.size) :
    maxBlockSize p n = .ok (4 + maxEncodedSize n) := by
  rw [maxBlockSize, Word.mul_of_lt h]
  rfl

def decompress (p : Profile) (block : ByteArray) (room : Nat) : Decoding :=
  if block.size < 4 then ⟨.empty, .error (.corrupt .blockWithoutSize)⟩
  else
    match decode p (block.extract 4 block.size) room with
    | (out, .error e) => ⟨out, .error (.decompression e)⟩
    | (out, .panicked v) => ⟨out, .panicked v⟩
    | (out, .ok ()) =>
        if out.size = room then ⟨out, .ok ()⟩ else ⟨out, .error (.corrupt .lengthMismatch)⟩

end Lz4

namespace Codec

def lz4 (p : Profile) : Codec where
  maxCompressedSize n := 4 + Lz4.maxEncodedSize n
  compress _ := Lz4.compress
  decompressedSize := sizeOfBlock .blockWithoutSize
  decompress _ := Lz4.decompress p

end Codec

end TraceCapture
