import TraceCapture.Bytes
import TraceCapture.Stream.Source
import TraceCapture.Trace.Codec
import TraceCapture.Trace.Event
import TraceCapture.Word

set_option autoImplicit false

/-!
# Reading trace files

A reader keeps one decoded chunk and a cursor into it, and loads the next chunk only when bytes are
asked for that the cached one does not have. A length of zero, a file that ends inside a length and
a file that ends inside a block all end the stream; bad lengths and blocks that do not decode are
errors. A codec that panics panics through the reader, which can be used on.
-/

namespace TraceCapture

structure Reader (σ : Type) where
  inner : σ
  codec : Codec
  cache : ByteArray
  /-- How much of the cached chunk is read. -/
  cursor : Nat
  bufferSize : Nat
  /-- Where in the file the entry of the cached chunk starts. -/
  chunk : Nat
  /-- Where in the file the next entry starts. -/
  position : Nat
  fileLength : Nat
  exhausted : Bool
  decompressions : Nat
  log : Array TraceEvent

namespace Reader

variable {σ : Type}

def record (r : Reader σ) (e : TraceEvent) : Reader σ := { r with log := r.log.push e }

def available (r : Reader σ) : Nat := r.cache.size - r.cursor

def endOfData (r : Reader σ) : Bool := r.exhausted && r.available == 0

def currentOffset (r : Reader σ) : Offset := ⟨r.chunk, r.cursor⟩

/-- Ends the stream. What follows in the file is never read and counts as read. -/
def markExhausted (r : Reader σ) : Reader σ :=
  { r with exhausted := true, position := r.fileLength }

def percentRead (r : Reader σ) : Nat :=
  if r.fileLength = 0 then 100 else min 100 (Word.satMul r.position 100 / r.fileLength)

/-- Caches the chunk in `block`, which has `size` bytes. It is decoded only if a caller that steps
over `skip` bytes stops inside it; otherwise zeros stand for it. -/
def cacheBlock (r : Reader σ) (block : ByteArray) (size skip : Nat) :
    Outcome TraceError Unit × Reader σ :=
  if skip < size then
    let d := r.codec.decompress r.decompressions block size
    let r := { r with cache := Bytes.fit d.output size, decompressions := r.decompressions + 1 }
    (d.ending, r)
  else (.ok (), { r with cache := Bytes.zeros size })

variable [Source σ]

def loadBlock (r : Reader σ) (length skip : Nat) : Outcome TraceError Unit × Reader σ :=
  let r := { r with bufferSize := length }
  match Source.readExact? r.inner length with
  | (.error e, inner) => (.error (.io e), { r with inner })
  | (.ok none, inner) =>
      (.ok (), ({ r with inner }.record (.chunkTruncated r.chunk length)).markExhausted)
  | (.ok (some block), inner) =>
    let r := { r with inner, position := r.chunk + lengthSize + length }
    match r.codec.decompressedSize block with
    | .error e => (.error e, r)
    | .ok size =>
      if maxChunkSize < size then (.error (.corrupt .chunkTooLarge), r)
      else r.cacheBlock block size skip

/-- Loads the chunk whose entry comes next, for a caller that steps over `skip` bytes. -/
def loadChunk (r : Reader σ) (skip : Nat) : Outcome TraceError Unit × Reader σ :=
  let r := { r with chunk := r.position, cursor := 0, cache := .empty }
  match Source.readExact? r.inner lengthSize with
  | (.error e, inner) => (.error (.io e), { r with inner })
  | (.ok none, inner) => (.ok (), { r with inner }.markExhausted)
  | (.ok (some b), inner) =>
    let r := { r with inner }
    let length := (Bytes.toU32? b).getD 0
    if length = 0 then (.ok (), r.markExhausted)
    else if r.codec.maxCompressedSize maxChunkSize < length then
      (.error (.corrupt .chunkTooLong), r)
    else r.loadBlock length skip

def pending (r : Reader σ) : Nat :=
  if r.exhausted then 0 else 1 + Source.remaining r.inner

theorem pending_markExhausted (r : Reader σ) : r.markExhausted.pending = 0 := rfl

theorem pending_le {r r' : Reader σ} (he : r'.exhausted = r.exhausted)
    (hs : Source.remaining r'.inner ≤ Source.remaining r.inner) : r'.pending ≤ r.pending := by
  unfold pending
  rw [he]
  split <;> omega

theorem pending_cacheBlock (r : Reader σ) (block : ByteArray) (size skip : Nat) :
    (r.cacheBlock block size skip).2.pending = r.pending := by
  unfold cacheBlock
  split <;> rfl

theorem pending_loadBlock (r : Reader σ) (length skip : Nat) :
    (r.loadBlock length skip).2.pending ≤ r.pending := by
  unfold loadBlock
  dsimp only
  split
  · exact pending_le rfl (Source.readExact?_remaining_le ‹_›)
  · exact Nat.zero_le _
  · have hs := Source.readExact?_remaining_le ‹_›
    split
    · exact pending_le rfl hs
    · split
      · exact pending_le rfl hs
      · rw [pending_cacheBlock]
        exact pending_le rfl hs

/-- Loading a chunk uses up part of the source or finds its end. -/
theorem pending_loadChunk {r r' : Reader σ} {skip : Nat} (hr : r.exhausted = false)
    (h : r.loadChunk skip = (.ok (), r')) : r'.pending < r.pending := by
  have hp : r.pending = 1 + Source.remaining r.inner := by simp [pending, hr]
  unfold loadChunk at h
  dsimp only at h
  split at h
  · cases h
  · cases h
    rw [pending_markExhausted]
    omega
  · next b inner hb =>
    have hs : Source.remaining inner + 4 ≤ Source.remaining r.inner :=
      Source.readExact?_remaining hb
    split at h
    · cases h
      rw [pending_markExhausted]
      omega
    · split at h
      · cases h
      · have hle := pending_loadBlock
          { r with chunk := r.position, cursor := 0, cache := .empty, inner := inner }
          ((Bytes.toU32? b).getD 0) skip
        rw [h] at hle
        simp only [pending, hr, Bool.false_eq_true, ↓reduceIte] at hle ⊢
        omega

def start (inner : σ) (codec : Codec) : Outcome TraceError (Reader σ) :=
  match Source.seekEnd inner with
  | (.error e, _) => .error (.io e)
  | (.ok fileLength, inner) =>
    match Source.seekStart inner 0 with
    | (.error e, _) => .error (.io e)
    | (.ok (), inner) =>
      match Source.readExact? inner magic.size with
      | (.error e, _) => .error (.io e)
      | (.ok none, _) => .error .invalidMagic
      | (.ok (some b), inner) =>
        if b.data = magic.data then
          let r : Reader σ :=
            { inner, codec, cache := .empty, cursor := 0, bufferSize := 0, chunk := magic.size,
              position := magic.size, fileLength, exhausted := false, decompressions := 0,
              log := #[] }
          let (loaded, r) := r.loadChunk 0
          loaded.map fun () => r
        else .error .invalidMagic

def readOn (r : Reader σ) (n : Nat) (out : ByteArray) : Outcome TraceError ByteArray × Reader σ :=
  if n ≤ out.size then (.ok out, r)
  else if r.available = 0 then
    if _hr : r.exhausted then (.ok out, r)
    else
      match _h : r.loadChunk 0 with
      | (.ok (), r') => r'.readOn n out
      | (.error e, r') => (.error e, r')
      | (.panicked v, r') => (.panicked v, r')
  else
    let stop := r.cursor + min r.available (n - out.size)
    { r with cursor := stop }.readOn n (out ++ r.cache.extract r.cursor stop)
termination_by (r.pending, n - out.size)
decreasing_by
  · exact Prod.Lex.left _ _ (pending_loadChunk (by simpa using _hr) _h)
  · refine Prod.Lex.right _ ?_
    simp only [available, ByteArray.size_append, ByteArray.size_extract] at *
    omega

/-- The next `n` bytes, or all there are up to the end of the stream. An error loses the bytes that
the call has already read. -/
def readBytes (r : Reader σ) (n : Nat) : Outcome TraceError ByteArray × Reader σ :=
  r.readOn n .empty

def readByte (r : Reader σ) : Outcome TraceError (Option UInt8) × Reader σ :=
  let (b, r) := r.readBytes 1
  (b.map fun b => b.data[0]?, r)

def skipOn (r : Reader σ) (n : Nat) : Outcome TraceError Unit × Reader σ :=
  let step := min r.available n
  let stepped := { r with cursor := r.cursor + step }
  if n ≤ step then (.ok (), stepped)
  else if _hr : r.exhausted then (.ok (), stepped)
  else
    match _h : stepped.loadChunk (n - step) with
    | (.ok (), r') => r'.skipOn (n - step)
    | (.error e, r') => (.error e, r')
    | (.panicked v, r') => (.panicked v, r')
termination_by r.pending
decreasing_by
  have := pending_loadChunk (by simpa [stepped] using _hr) _h
  simpa [pending, stepped] using this

/-- Steps over `n` bytes without decoding the chunks that are stepped over in full. Answers whether
the stream had not ended before. -/
def skip (r : Reader σ) (n : Nat) : Outcome TraceError Bool × Reader σ :=
  if r.endOfData then (.ok false, r)
  else
    let (b, r) := r.skipOn n
    (b.map fun _ => true, r)

def setCurrentOffset (r : Reader σ) (o : Offset) : Outcome TraceError Unit × Reader σ :=
  match Source.seekStart r.inner o.chunk with
  | (.error e, inner) => (.error (.io e), { r with inner })
  | (.ok (), inner) =>
    match { r with inner, position := o.chunk, exhausted := false }.loadChunk 0 with
    | (.ok (), r) =>
        if r.cache.size < o.within then
          (.error (.invalidOffset o.chunk o.within r.cache.size), r)
        else (.ok (), { r with cursor := o.within })
    | failed => failed

def read (r : Reader σ) (n : Nat) : Outcome IoError ByteArray × Reader σ :=
  let (b, r) := r.readBytes n
  (b.mapError TraceError.toIo, r)

def readExact (r : Reader σ) (n : Nat) : Outcome IoError ByteArray × Reader σ :=
  match r.read n with
  | (.ok b, r) => if b.size < n then (.error .unexpectedEof, r) else (.ok b, r)
  | failed => failed

def readRest (r : Reader σ) (out : ByteArray) : Outcome TraceError ByteArray × Reader σ :=
  let out := out ++ r.cache.extract r.cursor r.cache.size
  let read := { r with cursor := max r.cursor r.cache.size }
  if _hr : r.exhausted then (.ok out, read)
  else
    match _h : read.loadChunk 0 with
    | (.ok (), r') => r'.readRest out
    | (.error e, r') => (.error e, r')
    | (.panicked v, r') => (.panicked v, r')
termination_by r.pending
decreasing_by
  have := pending_loadChunk (by simpa [read] using _hr) _h
  simpa [pending, read] using this

def readToEnd (r : Reader σ) : Outcome IoError ByteArray × Reader σ :=
  let (b, r) := r.readRest .empty
  (b.mapError TraceError.toIo, r)

end Reader

end TraceCapture
