import TraceCapture.Block.Stored
import TraceCapture.Proofs.Stream.Memory
import TraceCapture.Proofs.Trace.Places
import TraceCapture.Proofs.Writer.Extension

set_option autoImplicit false

namespace TraceCapture

open LawfulSink

/-- The blocks that a codec makes give back their chunks, but it may refuse to make one. -/
structure Codec.Faithful (codec : Codec) : Prop where
  mono : ∀ m n, m ≤ n → codec.maxCompressedSize m ≤ codec.maxCompressedSize n
  max_lt : codec.maxCompressedSize maxChunkSize < Bytes.u32Limit
  encodes : ∀ call chunk room block, 0 < chunk.size → chunk.size ≤ maxChunkSize →
    codec.compress call chunk room = .ok block → codec.Encodes block chunk

namespace Codec

variable {codec : Codec}

theorem Lawful.faithful (h : codec.Lawful) : codec.Faithful :=
  ⟨h.mono, h.max_lt, fun _ _ _ _ => h.encodes⟩

/-- Refusing more chunks, on any calls, does no harm. -/
theorem Faithful.of_refusals (h : codec.Faithful)
    {compress : Nat → ByteArray → Nat → Except TraceError ByteArray}
    (hless : ∀ call chunk room block, compress call chunk room = .ok block →
      codec.compress call chunk room = .ok block) : Faithful { codec with compress } where
  mono := h.mono
  max_lt := h.max_lt
  encodes call chunk room block hpos hle hblock :=
    { h.encodes call chunk room block hpos hle (hless call chunk room block hblock) with }

theorem Faithful.refusing (h : codec.Faithful) (n : Nat) : (codec.refusing n).Faithful := by
  refine h.of_refusals fun call chunk room block hblock => ?_
  split at hblock
  · cases hblock
  · exact hblock

theorem faithful_stored : stored.Faithful where
  mono _ _ hle := Nat.add_le_add_right hle 4
  max_lt := by decide
  encodes call chunk room block hpos hle hblock := by
    change Stored.compress chunk room = .ok block at hblock
    unfold Stored.compress at hblock
    split at hblock
    · cases hblock
    cases hblock
    have hsize : (Bytes.ofU32 chunk.size ++ chunk).size = 4 + chunk.size := by
      rw [ByteArray.size_append, Bytes.size_ofU32]
    have hbody : (Bytes.ofU32 chunk.size ++ chunk).extract 4 (4 + chunk.size) = chunk :=
      ByteArray.extract_append_eq_right rfl (by rw [Bytes.size_ofU32])
    have hlimit : chunk.size < Bytes.u32Limit := Nat.lt_of_le_of_lt hle (by decide)
    refine ⟨by omega, ?_, ?_, hle, fun call _ => ?_⟩
    · change _ ≤ maxChunkSize + 4
      omega
    · simp only [stored, sizeOfBlock, Bytes.toU32?_ofU32_append hlimit]
    · simp only [stored, Stored.decompress, hsize, hbody, ByteArray.extract_zero_size, if_pos]

theorem Faithful.encodes_of_makes (h : codec.Faithful) {n : Nat} (hn : n ≤ maxChunkSize)
    {block chunk : ByteArray} (hmakes : codec.Makes n block chunk) : codec.Encodes block chunk := by
  obtain ⟨call, hblock⟩ := hmakes.compress_eq
  exact h.encodes call chunk _ block hmakes.chunk_pos (Nat.le_trans hmakes.chunk_le hn) hblock

end Codec

namespace Writer

variable {σ : Type}

def Refuses (w : Writer σ) (e : TraceError) : Prop :=
  w.codec.compress w.compressions w.staged (w.codec.maxCompressedSize w.chunkSize.val) = .error e

def refused (w : Writer σ) : Writer σ := { w with compressions := w.compressions + 1 }

theorem flushChunk_of_refuses [Sink σ] {w : Writer σ} {e : TraceError} (h0 : w.staged.size ≠ 0)
    (h : w.Refuses e) : w.flushChunk = (.error e, w.refused) := by
  rw [Refuses] at h
  rw [Writer.flushChunk, if_neg h0]
  dsimp only
  rw [h]
  rfl

theorem append_of_refuses [Sink σ] {w : Writer σ} {data : ByteArray} {e : TraceError}
    (hdata : 0 < data.size) (hroom : w.room ≤ data.size)
    (h0 : (w.stage (data.extract 0 w.room)).staged.size ≠ 0)
    (h : (w.stage (data.extract 0 w.room)).Refuses e) :
    w.append data = (.error e, (w.stage (data.extract 0 w.room)).refused) := by
  rw [append, appendFrom_fill hdata (by omega), Nat.zero_add, flushChunk_of_refuses h0 h]
  rfl

variable [LawfulSink σ] {w v x : Writer σ} {data before given : ByteArray}
  {bs cs blocks chunks : List ByteArray} {codec : Codec}

/-- The call tries the staged chunk first. If the codec refuses it, the call fails and nothing else
happened; if the codec makes a block of it, the call goes on behind its entry. -/
structure Retries (w : Writer σ) (call : Writer σ → Outcome TraceError Unit × Writer σ) : Prop where
  refused : ∀ e, w.Refuses e → call w = (.error e, w.refused)
  written : ∀ block, w.codec.compress w.compressions w.staged
      (w.codec.maxCompressedSize w.chunkSize.val) = .ok block →
    ∃ v, Extends w v .empty [block] [w.staged] ∧
      contents v.inner = contents w.inner ++ Entry.written block ∧ v.staged = .empty ∧
      call w = call v

/-- What the sink took behind `before` is the magic and the entries that the writer counts, and
these and the staged bytes are the bytes given. -/
structure InStep (codec : Codec) (w : Writer σ) (before given : ByteArray)
    (blocks chunks : List ByteArray) : Prop where
  faithful : codec.Faithful
  codec_eq : w.codec = codec
  staged_le : w.staged.size ≤ w.chunkSize.val
  contents_eq : contents w.inner = before ++ (magic ++ Entry.writtenAll blocks)
  position_eq : w.position = (magic ++ Entry.writtenAll blocks).size
  chunksWritten_eq : w.chunksWritten = blocks.length
  encodes : List.Forall₂ codec.Encodes blocks chunks
  bytes_eq : Bytes.concat chunks ++ w.staged = given

theorem Fresh.inStep {n : Nat} (h : Fresh w codec n before) (hc : codec.Faithful) :
    InStep codec w before .empty [] [] where
  faithful := hc
  codec_eq := h.codec_eq
  staged_le := h.fits
  contents_eq := h.contents_eq
  position_eq := h.position_eq
  chunksWritten_eq := h.chunksWritten_eq
  encodes := .nil
  bytes_eq := by rw [h.staged_eq]; rfl

theorem InStep.extend (h : InStep codec w before given blocks chunks)
    (hext : Extends w v data bs cs)
    (hcontents : contents v.inner = contents w.inner ++ Entry.writtenAll bs) :
    InStep codec v before (given ++ data) (blocks ++ bs) (chunks ++ cs) where
  faithful := h.faithful
  codec_eq := hext.codec_eq.trans h.codec_eq
  staged_le := hext.staged_le h.staged_le
  contents_eq := by
    rw [hcontents, h.contents_eq, Entry.writtenAll_append]
    simp only [ByteArray.append_assoc]
  position_eq := by
    rw [hext.position_eq, h.position_eq, Entry.writtenAll_append, ← ByteArray.append_assoc,
      ByteArray.size_append (b := Entry.writtenAll bs)]
  chunksWritten_eq := by
    rw [hext.chunksWritten_eq, h.chunksWritten_eq, List.length_append]
  encodes := by
    refine List.rel_append h.encodes (hext.makes.imp fun _ _ hmakes => ?_)
    rw [h.codec_eq] at hmakes
    exact h.faithful.encodes_of_makes w.chunkSize.le_max hmakes
  bytes_eq := by
    rw [Bytes.concat_append, ByteArray.append_assoc, hext.bytes_eq, ← ByteArray.append_assoc,
      h.bytes_eq]

theorem InStep.encodes_staged (h : InStep codec w before given blocks chunks)
    (h0 : w.staged.size ≠ 0) {call room : Nat} {block : ByteArray}
    (hblock : w.codec.compress call w.staged room = .ok block) :
    codec.Encodes block w.staged ∧ block.size < Bytes.u32Limit := by
  obtain rfl := h.codec_eq
  have hle := Nat.le_trans h.staged_le w.chunkSize.le_max
  have henc := h.faithful.encodes _ _ _ _ (Nat.pos_of_ne_zero h0) hle hblock
  exact ⟨henc, Nat.lt_of_le_of_lt henc.block_le h.faithful.max_lt⟩

theorem InStep.flushChunk_failed (h : InStep codec w before given blocks chunks)
    (hs : Sink.FaultFree w.inner) {o : Outcome TraceError Unit} (hflush : w.flushChunk = (o, v))
    (ho : o ≠ .ok ()) : ∃ e, w.Refuses e ∧ o = .error e ∧ v = w.refused := by
  obtain rfl := h.codec_eq
  obtain ⟨e, he, rfl, rfl⟩ | ⟨block, hblock, hlimit, -⟩ | ⟨block, cause, inner, -, hput, hne, -⟩ :=
    Writer.flushChunk_failed hflush ho
  · exact ⟨e, he, rfl, rfl⟩
  · have hlt := (h.encodes_staged (staged_of_flushChunk_failed hflush ho) hblock).2
    omega
  · rw [putEntry_ok hs] at hput
    exact absurd (congrArg Prod.fst hput).symm hne

theorem InStep.flush_failed (h : InStep codec w before given blocks chunks)
    (hs : Sink.FaultFree w.inner) (hfail : w.flush.1 ≠ .ok ()) :
    ∃ e, w.Refuses e ∧ w.flush = (.error e, w.refused) := by
  rw [flush_eq] at hfail ⊢
  cases hflush : w.flushChunk with
  | mk o v =>
    rw [hflush] at hfail
    by_cases ho : o = .ok ()
    · obtain rfl := ho
      obtain ⟨bs, hext, -⟩ := extends_of_flushChunk h.staged_le hflush
      rw [andThen_ok, (hs.of_reaches hext.reaches).flush_ok] at hfail
      exact absurd rfl hfail
    · obtain ⟨e, he, rfl, rfl⟩ := h.flushChunk_failed hs hflush ho
      exact ⟨e, he, rfl⟩

theorem InStep.finish_failed (h : InStep codec w before given blocks chunks)
    (hs : Sink.FaultFree w.inner) (hfail : w.finish.1 ≠ .ok ()) :
    ∃ e, w.Refuses e ∧ w.finish = (.error e, w.refused) := by
  have hflush : w.flush.1 ≠ .ok () := by
    intro hok
    rw [finish, ← Prod.eta w.flush, hok] at hfail
    exact absurd rfl hfail
  obtain ⟨e, he, hw⟩ := h.flush_failed hs hflush
  refine ⟨e, he, ?_⟩
  rw [finish, hw]

omit [LawfulSink σ] in
theorem fillPoint_eq_zero_iff (hfit : w.staged.size ≤ w.chunkSize.val)
    (hcount : v.chunksWritten = w.chunksWritten + bs.length) :
    w.fillPoint v = 0 ↔ w.staged.size = w.chunkSize.val ∧ bs = [] := by
  have hpos := w.chunkSize.pos
  rw [fillPoint, hcount, Nat.add_sub_cancel_left, ← List.length_eq_zero_iff, Nat.add_mul,
    Nat.one_mul]
  rcases Nat.eq_zero_or_pos bs.length with h0 | hmore
  · rw [h0]
    omega
  · have := Nat.le_mul_of_pos_left w.chunkSize.val hmore
    omega

/-- An append that fails took what fills a chunk, and the codec refused this one. -/
theorem InStep.append_failed (h : InStep codec w before given blocks chunks)
    (hs : Sink.FaultFree w.inner) {data : ByteArray} (hfail : (w.append data).1 ≠ .ok ()) :
    ∃ e v m bs cs, v.Refuses e ∧ w.append data = (.error e, v.refused) ∧
      v.staged.size = w.chunkSize.val ∧
      InStep codec v before (given ++ data.extract 0 m) (blocks ++ bs) (chunks ++ cs) ∧
      m ≤ data.size ∧ w.taken (.append data) = data.extract 0 m ∧
      (m = 0 ↔ w.staged.size = w.chunkSize.val ∧ bs = []) := by
  obtain ⟨v, bs, cs, hext, hcontents, hok | ⟨ho, hm, hfilled, hflush⟩⟩ :=
    append_reaches h.staged_le data
  · exact absurd (congrArg Prod.fst hok) hfail
  have hstep := h.extend hext hcontents
  obtain ⟨e, he, hcause, hv⟩ := hstep.flushChunk_failed (hs.of_reaches hext.reaches)
    (hflush.trans (Prod.eta _).symm) ho
  have hcount : (w.append data).2.chunksWritten = w.chunksWritten + bs.length := by
    rw [hv]
    exact hext.chunksWritten_eq
  have htaken : w.taken (.append data) = data.extract 0 (w.fillPoint (w.append data).2) :=
    if_neg hfail
  rw [htaken] at hstep
  exact ⟨e, v, _, bs, cs, he, Prod.ext hcause hv, hfilled, hstep, hm, htaken,
    fillPoint_eq_zero_iff h.staged_le hcount⟩

/-- A call that starts by writing the staged chunk tries it again. -/
theorem InStep.retries (h : InStep codec w before given blocks chunks)
    (hs : Sink.FaultFree w.inner) (h0 : w.staged.size ≠ 0)
    {call : Writer σ → Outcome TraceError Unit × Writer σ}
    (hrefused : ∀ e, w.flushChunk = (.error e, w.refused) → call w = (.error e, w.refused))
    (hwritten : ∀ v, w.flushChunk = (.ok (), v) → call w = call v) : w.Retries call where
  refused e he := hrefused e (flushChunk_of_refuses h0 he)
  written block hblock := by
    have hlimit := (h.encodes_staged h0 hblock).2
    have hput := putEntry_ok hs block
    obtain ⟨hext, -⟩ := extends_putBlock h0 h.staged_le hblock hlimit hput
    have hflush := flushChunk_of_put h0 hblock hlimit hput
    exact ⟨_, hext, contents_putEntry hput, rfl, hwritten _ hflush⟩

omit [LawfulSink σ] in
theorem flush_of_flushChunk [Sink σ] (h : w.flushChunk = (.ok (), v)) : w.flush = v.flush := by
  have h0 : v.staged.size = 0 := by rw [staged_of_flushChunk h, ByteArray.size_empty]
  rw [flush_eq, h, andThen_ok, flush_eq, flushChunk_of_empty h0, andThen_ok]

omit [LawfulSink σ] in
theorem append_of_full [Sink σ] (hfull : w.staged.size = w.chunkSize.val) (hdata : 0 < data.size) :
    w.append data = andThen w.flushChunk (·.append data) := by
  have hroom : w.room = 0 := by rw [room, hfull, Nat.sub_self]
  rw [append, appendFrom_fill hdata (by omega), hroom, Nat.add_zero, ByteArray.extract_same,
    stage_empty]
  rfl

theorem InStep.retries_flush (h : InStep codec w before given blocks chunks)
    (hs : Sink.FaultFree w.inner) (h0 : w.staged.size ≠ 0) : w.Retries flush :=
  h.retries hs h0 (fun e hflush => by rw [flush_eq, hflush]; rfl) fun _ => flush_of_flushChunk

theorem InStep.retries_finish (h : InStep codec w before given blocks chunks)
    (hs : Sink.FaultFree w.inner) (h0 : w.staged.size ≠ 0) : w.Retries finish :=
  h.retries hs h0 (fun e hflush => by rw [finish, flush_eq, hflush]; rfl)
    fun _ hflush => by rw [finish, flush_of_flushChunk hflush]; rfl

theorem InStep.retries_append (h : InStep codec w before given blocks chunks)
    (hs : Sink.FaultFree w.inner) (hfull : w.staged.size = w.chunkSize.val)
    (hdata : 0 < data.size) : w.Retries (·.append data) := by
  have h0 : w.staged.size ≠ 0 := hfull ▸ Nat.ne_of_gt w.chunkSize.pos
  refine h.retries hs h0 (fun e hflush => ?_) fun v hflush => ?_
  · rw [append_of_full hfull hdata, hflush]
    rfl
  · rw [append_of_full hfull hdata, hflush]
    rfl

def onMemory (codec : Codec) (chunkSize : ChunkSize) : Writer MemorySink where
  inner := ⟨magic, 0, false, .none⟩
  codec := codec
  chunkSize := chunkSize
  staged := .empty
  position := magic.size
  chunksWritten := 0
  compressions := 0
  log := #[]

theorem start_onMemory (codec : Codec) (chunkSize : ChunkSize)
    (hbuffer : codec.maxCompressedSize chunkSize.val < Bytes.bufferLimit) :
    start (.new .none) chunkSize.val codec =
      (.ok (onMemory codec chunkSize), (onMemory codec chunkSize).inner) :=
  start_of_write codec chunkSize hbuffer (MemorySink.writeAll_of_faults rfl rfl magic)

theorem putEntry_onMemory {s : MemorySink} (h : s.faults = .none) (hresumed : s.resumed = false)
    (block : ByteArray) : putEntry s block =
      (.ok (), { s with data := s.data ++ Bytes.ofU32 block.size ++ block }) :=
  putEntry_of_writes (MemorySink.writeAll_of_faults h hresumed _)
    (MemorySink.writeAll_of_faults (s := { s with data := s.data ++ _ }) h hresumed block)

end Writer

end TraceCapture
