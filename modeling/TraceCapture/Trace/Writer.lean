import TraceCapture.Stream.Sink
import TraceCapture.Trace.Codec
import TraceCapture.Trace.Event

set_option autoImplicit false

/-!
# Writing trace files

A writer stages bytes until it has a chunk of them, compresses the chunk and hands the sink one
entry. A chunk that could not be written stays staged, so that a later call tries it again, and the
writer's position counts only entries that were written in full.
-/

namespace TraceCapture

structure Writer (σ : Type) where
  inner : σ
  codec : Codec
  chunkSize : ChunkSize
  /-- The bytes that are in no entry yet. -/
  staged : ByteArray
  /-- The size of the file: the magic and all entries written so far. -/
  position : Nat
  chunksWritten : Nat
  compressions : Nat
  log : Array TraceEvent

namespace Writer

variable {σ : Type}

/-- The position at which a reader finds the next byte, once the staged bytes are written. -/
def currentOffset (w : Writer σ) : Offset := ⟨w.position, w.staged.size⟩

def record (w : Writer σ) (e : TraceEvent) : Writer σ := { w with log := w.log.push e }

variable [Sink σ]

/-- Starts a trace file in a sink and then claims the buffer for its blocks. Answers the sink too,
as it is after the start failed. -/
def start (inner : σ) (chunkSize : Nat) (codec : Codec) : Outcome TraceError (Writer σ) × σ :=
  match ChunkSize.ofNat? chunkSize with
  | .error e => (.error e, inner)
  | .ok chunkSize =>
    match Sink.writeAll inner magic with
    | (.ok (), inner) =>
      match Bytes.reserve (codec.maxCompressedSize chunkSize.val) with
      | .error v => (.panicked v, inner)
      | .ok () =>
        (.ok { inner, codec, chunkSize, staged := .empty, position := magic.size,
               chunksWritten := 0, compressions := 0, log := #[] }, inner)
    | (.error e, inner) => (.error (.io e), inner)
    | (.panicked v, inner) => (.panicked v, inner)

theorem start_eq (inner : σ) (codec : Codec) {n : Nat} (hpos : 0 < n) (hmax : n ≤ maxChunkSize)
    (hbuffer : codec.maxCompressedSize n < Bytes.bufferLimit) :
    start inner n codec =
      (((Sink.writeAll inner magic).1.mapError .io).map fun () =>
        { inner := (Sink.writeAll inner magic).2, codec, chunkSize := ⟨n, hpos, hmax⟩,
          staged := .empty, position := magic.size, chunksWritten := 0, compressions := 0,
          log := #[] }, (Sink.writeAll inner magic).2) := by
  rw [start, ChunkSize.ofNat?_of_le hpos hmax]
  dsimp only
  rw [Bytes.reserve_of_lt hbuffer]
  obtain ⟨written, inner⟩ := Sink.writeAll inner magic
  cases written <;> rfl

def putEntry (inner : σ) (block : ByteArray) : Outcome IoError Unit × σ :=
  match Sink.writeAll inner (Bytes.ofU32 block.size) with
  | (.ok (), inner) => Sink.writeAll inner block
  | r => r

def flushChunk (w : Writer σ) : Outcome TraceError Unit × Writer σ :=
  if w.staged.size = 0 then (.ok (), w)
  else
    let room := w.codec.maxCompressedSize w.chunkSize.val
    let compressed := w.codec.compress w.compressions w.staged room
    let w := { w with compressions := w.compressions + 1 }
    match compressed with
    | .error e => (.error e, w)
    | .ok block =>
      if Bytes.u32Limit ≤ block.size then (.error (.corrupt .compressedTooLong), w)
      else
        match putEntry w.inner block with
        | (.error e, inner) => (.error (.io e), { w with inner })
        | (.panicked v, inner) => (.panicked v, { w with inner })
        | (.ok (), inner) =>
          let event := .chunkFlushed w.chunksWritten w.staged.size block.size
          (.ok (), { w.record event with
            inner
            staged := .empty
            position := w.position + lengthSize + block.size
            chunksWritten := w.chunksWritten + 1 })

theorem staged_of_flushChunk {w w' : Writer σ} (h : w.flushChunk = (.ok (), w')) :
    w'.staged = .empty := by
  unfold flushChunk at h
  split at h
  · next h0 =>
    cases h
    exact ByteArray.size_eq_zero_iff.mp h0
  · dsimp only at h
    split at h
    · cases h
    · split at h
      · cases h
      · split at h <;> cases h
        rfl

def appendFrom (w : Writer σ) (data : ByteArray) (i : Nat) : Outcome TraceError Unit × Writer σ :=
  if data.size ≤ i then (.ok (), w)
  else
    let j := i + min (data.size - i) (w.chunkSize.val - w.staged.size)
    let more := { w with staged := w.staged ++ data.extract i j }
    if more.chunkSize.val ≤ more.staged.size then
      match _h : more.flushChunk with
      | (.ok (), next) => next.appendFrom data j
      | r => r
    else more.appendFrom data j
termination_by (data.size - i, w.staged.size)
decreasing_by
  · have hs := staged_of_flushChunk _h
    have hpos := w.chunkSize.pos
    simp only [more, j, ByteArray.size_append, ByteArray.size_extract, hs,
      ByteArray.size_empty, Prod.lex_def] at *
    omega
  · simp only [more, j, ByteArray.size_append, ByteArray.size_extract, Prod.lex_def] at *
    omega

def append (w : Writer σ) (data : ByteArray) : Outcome TraceError Unit × Writer σ :=
  w.appendFrom data 0

def flush (w : Writer σ) : Outcome TraceError Unit × Writer σ :=
  match w.flushChunk with
  | (.ok (), w) =>
      let (r, inner) := Sink.flush w.inner
      (r.mapError .io, { w with inner })
  | r => r

/-- Gives up a writer that was not finished: flushes it, and only records it if that fails. -/
def drop (w : Writer σ) : Outcome TraceError Unit × Writer σ :=
  match w.flush with
  | (.error e, w) => (.ok (), w.record (.flushFailedOnDrop e))
  | r => r

/-- Ends the file. A writer that fails to is gone without another try; one that panics is dropped
like any unfinished writer. -/
def finish (w : Writer σ) : Outcome TraceError Unit × Writer σ :=
  match w.flush with
  | (.panicked v, w) => (.panicked v, w.drop.2)
  | r => r

def write (w : Writer σ) (data : ByteArray) : Outcome IoError Nat × Writer σ :=
  let (r, w) := w.append data
  ((r.mapError TraceError.toIo).map fun _ => data.size, w)

def flushStream (w : Writer σ) : Outcome IoError Unit × Writer σ :=
  let (r, w) := w.flush
  (r.mapError TraceError.toIo, w)

end Writer

end TraceCapture
