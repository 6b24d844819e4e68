import TraceCapture.Proofs.Stream.FaultFree
import TraceCapture.Proofs.Trace.Decoding
import TraceCapture.Proofs.Writer.Append

set_option autoImplicit false

namespace TraceCapture.Writer

open LawfulSink

variable {σ : Type}

structure SameFormat (w w' : Writer σ) : Prop where
  codec_eq : w'.codec = w.codec
  chunkSize_eq : w'.chunkSize = w.chunkSize

theorem SameFormat.refl (w : Writer σ) : SameFormat w w := ⟨rfl, rfl⟩

theorem SameFormat.trans {w w' w'' : Writer σ} (h : SameFormat w w') (h' : SameFormat w' w'') :
    SameFormat w w'' :=
  ⟨h'.codec_eq.trans h.codec_eq, h'.chunkSize_eq.trans h.chunkSize_eq⟩

def stagedChunk (w : Writer σ) : List ByteArray := if w.staged.size = 0 then [] else [w.staged]

theorem concat_stagedChunk (w : Writer σ) : Bytes.concat w.stagedChunk = w.staged := by
  unfold stagedChunk
  split
  · next h => rw [Bytes.concat, ByteArray.size_eq_zero_iff.mp h]
  · rw [Bytes.concat, Bytes.concat, ByteArray.append_empty]

theorem reaches_putEntry [Sink σ] (s : σ) (block : ByteArray) :
    Sink.Reaches s (putEntry s block).2 := by
  unfold putEntry
  have hlen := Sink.reaches_writeAll s (Bytes.ofU32 block.size)
  split
  · next t h =>
    rw [h] at hlen
    exact hlen.trans (Sink.reaches_writeAll t block)
  · exact hlen

theorem start_of_write [Sink σ] {s t : σ} (codec : Codec) (chunkSize : ChunkSize)
    (hbuffer : codec.maxCompressedSize chunkSize.val < Bytes.bufferLimit)
    (h : Sink.writeAll s magic = (.ok (), t)) :
    start s chunkSize.val codec = (.ok { inner := t, codec, chunkSize, staged := .empty
                                         position := magic.size, chunksWritten := 0
                                         compressions := 0, log := #[] }, t) := by
  rw [start_eq s codec chunkSize.pos chunkSize.le_max hbuffer, h]
  rfl

theorem putEntry_of_writes [Sink σ] {s t : σ} {block : ByteArray} {r : Outcome IoError Unit × σ}
    (hlength : Sink.writeAll s (Bytes.ofU32 block.size) = (.ok (), t))
    (hblock : Sink.writeAll t block = r) : putEntry s block = r := by
  rw [putEntry, hlength]
  exact hblock

theorem putEntry_ok [Sink σ] {s : σ} (hs : Sink.FaultFree s) (block : ByteArray) :
    putEntry s block = (.ok (), (putEntry s block).2) := by
  have hlen := Sink.reaches_writeAll s (Bytes.ofU32 block.size)
  refine Prod.ext ?_ rfl
  rw [putEntry, Sink.writeAll_ok hs]
  dsimp only
  rw [Sink.writeAll_ok (hs.of_reaches hlen)]

theorem contents_putEntry [LawfulSink σ] {s t : σ} {block : ByteArray}
    (h : putEntry s block = (.ok (), t)) : contents t = contents s ++ Entry.written block := by
  unfold putEntry at h
  split at h
  · next u hu =>
    rw [Sink.contents_writeAll h, Sink.contents_writeAll hu, Entry.written,
      ByteArray.append_assoc]
  · next hne => exact absurd h (hne t)

def putBlock (w : Writer σ) (block : ByteArray) (inner : σ) : Writer σ :=
  { w with
    compressions := w.compressions + 1
    log := w.log.push (.chunkFlushed w.chunksWritten w.staged.size block.size)
    inner
    staged := .empty
    position := w.position + lengthSize + block.size
    chunksWritten := w.chunksWritten + 1 }

theorem compress_staged {w : Writer σ} (hc : w.codec.Lawful)
    (hstaged : w.staged.size ≤ w.chunkSize.val) (h0 : w.staged.size ≠ 0) :
    ∃ block, w.codec.compress w.compressions w.staged
        (w.codec.maxCompressedSize w.chunkSize.val) = .ok block ∧
      w.codec.Encodes block w.staged ∧ block.size < Bytes.u32Limit := by
  have hpos : 0 < w.staged.size := Nat.pos_of_ne_zero h0
  have hmax : w.staged.size ≤ maxChunkSize := Nat.le_trans hstaged w.chunkSize.le_max
  obtain ⟨block, hblock⟩ := hc.compress_ok w.compressions w.staged
    (w.codec.maxCompressedSize w.chunkSize.val) hpos hmax (hc.mono _ _ hstaged)
  have henc := hc.encodes hpos hmax hblock
  exact ⟨block, hblock, henc, Nat.lt_of_le_of_lt henc.block_le hc.max_lt⟩

section

variable [Sink σ] {w w' : Writer σ}

theorem flushChunk_of_empty (h0 : w.staged.size = 0) : w.flushChunk = (.ok (), w) := if_pos h0

theorem flushChunk_of_put {block : ByteArray} {inner : σ} (h0 : w.staged.size ≠ 0)
    (hblock : w.codec.compress w.compressions w.staged
      (w.codec.maxCompressedSize w.chunkSize.val) = .ok block)
    (hlimit : block.size < Bytes.u32Limit) (hput : putEntry w.inner block = (.ok (), inner)) :
    w.flushChunk = (.ok (), w.putBlock block inner) := by
  rw [Writer.flushChunk, if_neg h0]
  dsimp only
  rw [hblock]
  dsimp only
  rw [if_neg (Nat.not_le.mpr hlimit), hput]
  rfl

/-- All that a successful flush of a chunk can have done. -/
theorem flushChunk_eq_ok (h : w.flushChunk = (.ok (), w')) (h0 : w.staged.size ≠ 0) :
    ∃ block inner, w.codec.compress w.compressions w.staged
        (w.codec.maxCompressedSize w.chunkSize.val) = .ok block ∧
      block.size < Bytes.u32Limit ∧ putEntry w.inner block = (.ok (), inner) ∧
      w' = w.putBlock block inner := by
  rw [Writer.flushChunk, if_neg h0] at h
  dsimp only at h
  split at h
  · cases h
  · next block hblock =>
    split at h
    · cases h
    · next hlimit =>
      split at h <;> cases h
      next inner hput => exact ⟨block, inner, hblock, Nat.lt_of_not_le hlimit, hput, rfl⟩

end

/-- The sink held `before` and now holds a file of these blocks behind it; what is staged fits into
a chunk. -/
structure Wrote [LawfulSink σ] (w : Writer σ) (before : ByteArray)
    (blocks chunks : List ByteArray) : Prop where
  faultFree : Sink.FaultFree w.inner
  lawful : w.codec.Lawful
  contents_eq : contents w.inner = before ++ (magic ++ Entry.writtenAll blocks)
  encodes : List.Forall₂ w.codec.Encodes blocks chunks
  chunk_size : ∀ c ∈ chunks, 0 < c.size ∧ c.size ≤ w.chunkSize.val
  staged_le : w.staged.size ≤ w.chunkSize.val
  position_eq : w.position = (magic ++ Entry.writtenAll blocks).size
  chunksWritten_eq : w.chunksWritten = blocks.length

variable [LawfulSink σ]

theorem Wrote.stage {w : Writer σ} {before : ByteArray} {blocks chunks : List ByteArray}
    (h : Wrote w before blocks chunks) (data : ByteArray) (i : Nat) :
    Wrote (w.stage (data.extract i (i + min (data.size - i) w.room))) before blocks chunks :=
  { h with staged_le := size_stage_le h.staged_le data i }

theorem Wrote.flushChunk {w : Writer σ} {before : ByteArray} {blocks chunks : List ByteArray}
    (h : Wrote w before blocks chunks) :
    ∃ w' new, w.flushChunk = (.ok (), w') ∧ SameFormat w w' ∧ w'.staged = .empty ∧
      Wrote w' before (blocks ++ new) (chunks ++ w.stagedChunk) := by
  by_cases h0 : w.staged.size = 0
  · refine ⟨w, [], flushChunk_of_empty h0, .refl w, ByteArray.size_eq_zero_iff.mp h0, ?_⟩
    rwa [stagedChunk, if_pos h0, List.append_nil, List.append_nil]
  obtain ⟨block, hblock, henc, hlimit⟩ := compress_staged h.lawful h.staged_le h0
  have hput := putEntry_ok h.faultFree block
  have hall := Entry.writtenAll_concat blocks block
  have hflush := flushChunk_of_put h0 hblock hlimit hput
  refine ⟨_, [block], hflush, ⟨rfl, rfl⟩, rfl, ?_⟩
  rw [stagedChunk, if_neg h0]
  exact {
    faultFree := h.faultFree.of_reaches (reaches_putEntry _ _)
    lawful := h.lawful
    contents_eq := by
      change contents (putEntry w.inner block).2 = _
      rw [contents_putEntry hput, h.contents_eq, hall, ByteArray.append_assoc,
        ByteArray.append_assoc]
    encodes := List.rel_append h.encodes (.cons henc .nil)
    chunk_size := by
      intro c hc
      obtain hc | hc := List.mem_append.mp hc
      · exact h.chunk_size c hc
      · rw [List.mem_singleton.mp hc]
        exact ⟨Nat.pos_of_ne_zero h0, h.staged_le⟩
    staged_le := Nat.zero_le _
    position_eq := by
      change w.position + lengthSize + block.size = _
      rw [h.position_eq, hall]
      simp only [ByteArray.size_append, Entry.size_written]
      omega
    chunksWritten_eq := by
      change w.chunksWritten + 1 = _
      rw [h.chunksWritten_eq, List.length_append, List.length_singleton] }

theorem Wrote.appendFrom {w : Writer σ} {before : ByteArray} {blocks chunks : List ByteArray}
    (h : Wrote w before blocks chunks) (data : ByteArray) (i : Nat) :
    ∃ w' bs cs, w.appendFrom data i = (.ok (), w') ∧ SameFormat w w' ∧
      Wrote w' before (blocks ++ bs) (chunks ++ cs) ∧
      Bytes.concat cs ++ w'.staged = w.staged ++ data.extract i data.size := by
  fun_induction Writer.appendFrom w data i generalizing blocks chunks with
  | case1 w i hi =>
    refine ⟨w, [], [], rfl, .refl w, by rwa [List.append_nil, List.append_nil], ?_⟩
    rw [Bytes.concat, ByteArray.empty_append, ByteArray.extract_eq_empty_iff.mpr (by omega),
      ByteArray.append_empty]
  | case2 w i hi j more hfull next =>
    rename_i hflush ih
    have hstage : Wrote (w.stage (data.extract i j)) before blocks chunks := h.stage data i
    obtain ⟨v, new, hv, hformat, hempty, hwrote⟩ := hstage.flushChunk
    rw [show (w.stage (data.extract i j)).flushChunk = (.ok (), next) from hflush] at hv
    cases hv
    obtain ⟨w', bs, cs, hw', hformat', hwrote', hdata⟩ := ih hwrote
    refine ⟨w', new ++ bs, (w.stage (data.extract i j)).stagedChunk ++ cs, hw',
      .trans ⟨hformat.codec_eq, hformat.chunkSize_eq⟩ hformat', ?_, ?_⟩
    · rwa [← List.append_assoc, ← List.append_assoc]
    · rw [hempty, ByteArray.empty_append] at hdata
      rw [Bytes.concat_append, ByteArray.append_assoc, hdata, concat_stagedChunk]
      change w.staged ++ data.extract i j ++ data.extract j data.size = _
      rw [ByteArray.append_assoc,
        ← ByteArray.extract_eq_extract_append_extract j (by omega) (by omega)]
  | case3 w i hi j more =>
    rename_i hfull hflush
    have hstage : Wrote (w.stage (data.extract i j)) before blocks chunks := h.stage data i
    obtain ⟨v, new, hv, -⟩ := hstage.flushChunk
    exact absurd hv (hflush v)
  | case4 w i hi j more =>
    rename_i hfull ih
    have hstage : Wrote (w.stage (data.extract i j)) before blocks chunks := h.stage data i
    obtain ⟨w', bs, cs, hw', hformat, hwrote, hdata⟩ := ih hstage
    refine ⟨w', bs, cs, hw', ⟨hformat.codec_eq, hformat.chunkSize_eq⟩, hwrote, ?_⟩
    rw [hdata]
    change w.staged ++ data.extract i j ++ data.extract j data.size = _
    rw [ByteArray.append_assoc,
      ← ByteArray.extract_eq_extract_append_extract j (by omega) (by omega)]

theorem Wrote.of_inner {w : Writer σ} {before : ByteArray} {blocks chunks : List ByteArray}
    (h : Wrote w before blocks chunks) {s : σ} (hs : Sink.FaultFree s)
    (hc : contents s = contents w.inner) : Wrote { w with inner := s } before blocks chunks :=
  { h with faultFree := hs, contents_eq := hc.trans h.contents_eq }

theorem Wrote.flush {w : Writer σ} {before : ByteArray} {blocks chunks : List ByteArray}
    (h : Wrote w before blocks chunks) :
    ∃ w' new, w.flush = (.ok (), w') ∧ SameFormat w w' ∧ w'.staged = .empty ∧
      Wrote w' before (blocks ++ new) (chunks ++ w.stagedChunk) := by
  obtain ⟨v, new, hv, hformat, hempty, hwrote⟩ := h.flushChunk
  have hf := hwrote.faultFree
  refine ⟨{ v with inner := (Sink.flush v.inner).2 }, new, ?_,
    ⟨hformat.codec_eq, hformat.chunkSize_eq⟩, hempty, ?_⟩
  · rw [flush_eq, hv, andThen_ok, hf.flush_ok]
    rfl
  · exact hwrote.of_inner (hf.of_reaches (.flush .refl)) (contents_flush _)

theorem Wrote.performAll {w : Writer σ} {before : ByteArray} {blocks chunks : List ByteArray}
    (h : Wrote w before blocks chunks) (calls : List WriterCall) :
    ∃ w' bs cs, w.performAll calls = (.ok (), w') ∧ SameFormat w w' ∧
      Wrote w' before (blocks ++ bs) (chunks ++ cs) ∧
      Bytes.concat cs ++ w'.staged = w.staged ++ WriterCall.bytes calls := by
  induction calls generalizing w blocks chunks with
  | nil =>
    refine ⟨w, [], [], rfl, .refl w, by rwa [List.append_nil, List.append_nil], ?_⟩
    rw [Bytes.concat, WriterCall.bytes, ByteArray.empty_append, ByteArray.append_empty]
  | cons call calls ih =>
    cases call with
    | append data =>
      obtain ⟨v, bs, cs, hv, hformat, hwrote, hdata⟩ := h.appendFrom data 0
      obtain ⟨w', bs', cs', hw', hformat', hwrote', hdata'⟩ := ih hwrote
      refine ⟨w', bs ++ bs', cs ++ cs', ?_, hformat.trans hformat', ?_, ?_⟩
      · rw [Writer.performAll, perform, Writer.append, hv, andThen_ok, hw']
      · rwa [← List.append_assoc, ← List.append_assoc]
      · rw [ByteArray.extract_zero_size] at hdata
        rw [Bytes.concat_append, ByteArray.append_assoc, hdata', ← ByteArray.append_assoc, hdata,
          WriterCall.bytes, ByteArray.append_assoc]
    | flush =>
      obtain ⟨v, new, hv, hformat, hempty, hwrote⟩ := h.flush
      obtain ⟨w', bs', cs', hw', hformat', hwrote', hdata'⟩ := ih hwrote
      refine ⟨w', new ++ bs', w.stagedChunk ++ cs', ?_, hformat.trans hformat', ?_, ?_⟩
      · rw [Writer.performAll, perform, hv, andThen_ok, hw']
      · rwa [← List.append_assoc, ← List.append_assoc]
      · rw [hempty, ByteArray.empty_append] at hdata'
        rw [Bytes.concat_append, ByteArray.append_assoc, hdata', concat_stagedChunk,
          WriterCall.bytes]

theorem wrote_start {s : σ} (hs : Sink.FaultFree s) {codec : Codec} (hc : codec.Lawful) {n : Nat}
    (hpos : 0 < n) (hmax : n ≤ maxChunkSize) :
    ∃ w, start s n codec = (.ok w, w.inner) ∧ w.codec = codec ∧ w.staged = .empty ∧
      w.chunkSize.val = n ∧ Wrote w (contents s) [] [] := by
  have hmagic := Sink.writeAll_ok hs magic
  refine ⟨{ inner := (Sink.writeAll s magic).2, codec, chunkSize := ⟨n, hpos, hmax⟩,
            staged := .empty, position := magic.size, chunksWritten := 0, compressions := 0,
            log := #[] }, ?_, rfl, rfl, rfl, ?_⟩
  · rw [start_eq s codec hpos hmax (hc.buffer_lt hmax), hmagic]
    rfl
  · exact {
      faultFree := hs.of_reaches (Sink.reaches_writeAll _ _)
      lawful := hc
      contents_eq := by
        rw [Sink.contents_writeAll hmagic]
        exact congrArg _ ByteArray.append_empty.symm
      encodes := .nil
      chunk_size := fun c hc => nomatch hc
      staged_le := Nat.zero_le _
      position_eq := rfl
      chunksWritten_eq := rfl }

end TraceCapture.Writer
