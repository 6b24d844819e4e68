import TraceCapture.Proofs.Bookmarks
import TraceCapture.Proofs.Writer.Refusals

set_option autoImplicit false

namespace TraceCapture

open LawfulSink

namespace Writer

variable {σ τ : Type} [LawfulSink σ] [LawfulSource τ] {codec : Codec} {w v x : Writer σ}
  {before given data : ByteArray} {blocks chunks bs cs : List ByteArray}

theorem InStep.currentOffset (h : InStep codec w before given blocks chunks) (rest : ByteArray) :
    w.currentOffset =
      ⟨Entry.after (magic ++ (Entry.writtenAll blocks ++ rest)) magic.size chunks.length,
        w.staged.size⟩ := by
  rw [Writer.currentOffset, h.position_eq, ← h.encodes.length_eq,
    Entry.after_writtenAll (Codec.blocks_lt h.faithful.max_lt h.encodes) magic rest]

/-- A file that ends with nothing staged reads as all that was given, and from the offset of an
earlier moment on as what was given since. -/
theorem InStep.reads (h : InStep codec w before given blocks chunks)
    (hext : Extends w v data bs cs)
    (hcontents : contents v.inner = contents w.inner ++ Entry.writtenAll bs)
    (h0 : v.staged = .empty) :
    ∃ file, contents v.inner = before ++ file ∧
      ∀ source : τ, Source.FaultFree source → LawfulSource.contents source = file →
        (∃ r, Reader.start source codec = .ok r ∧ r.Delivers (given ++ data)) ∧
        (Source.Seekable source → ∀ r, Reader.Opened source codec r → ∃ r',
          r.setCurrentOffset w.currentOffset = (.ok (), r') ∧ r'.Delivers data) := by
  have hend := h.extend hext hcontents
  have hmagic : ∀ rest, (magic ++ rest).extract 0 magic.size = magic :=
    fun rest => ByteArray.extract_append_eq_left rfl
  have hd := Codec.decodes_writtenAll h.faithful.max_lt hend.encodes magic
  have hall := hend.bytes_eq
  rw [h0, ByteArray.append_empty] at hall
  refine ⟨_, hend.contents_eq, fun source hfree hcontents => ⟨?_, fun hseek r hr => ?_⟩⟩
  · obtain ⟨r, hr, hholds⟩ := Reader.start_holds ⟨hfree, hcontents, rfl⟩ (hmagic _) hd
    rw [hall] at hholds
    exact ⟨r, hr, hholds.delivers⟩
  · have hwhere := h.currentOffset (Entry.writtenAll bs)
    have hmore := hext.bytes_eq
    have hfirst := hext.first_le
    rw [← Entry.writtenAll_append] at hwhere
    rw [h0, ByteArray.append_empty] at hmore
    rw [h0] at hfirst
    rw [hwhere]
    exact Reader.seek_behind hd (hmagic _) hseek hcontents hr hmore hfirst

end Writer

/-- Whatever chunks the codec refuses, the sink, the position and the count stay in step, a failing
append accepts what fills the refused chunk, and a full chunk is tried again before anything else.
Once finishing succeeds, the file reads as the bytes accepted and all offsets taken on the way are
places in it. -/
theorem refused_chunks_are_retried {σ τ : Type} [LawfulSink σ] [LawfulSource τ] {sink : σ}
    {codec : Codec} {n : Nat} (hs : Sink.FaultFree sink) (hc : codec.Faithful) (hpos : 0 < n)
    (hmax : n ≤ maxChunkSize) :
    ∃ w, Writer.start sink n codec = (.ok w, w.inner) ∧
      ∀ earlier v, (w.goOn earlier).2 = v → ∃ blocks chunks,
        v.InStep codec (contents sink) (w.accepted earlier) blocks chunks ∧ v.staged.size ≤ n ∧
        (∀ data, (v.append data).1 ≠ .ok () → ∃ (e : TraceError) (u : Writer σ) (m : Nat)
          (bs cs : List ByteArray),
          u.Refuses e ∧ v.append data = (.error e, u.refused) ∧ u.staged.size = n ∧
          u.InStep codec (contents sink) (w.accepted earlier ++ data.extract 0 m) (blocks ++ bs)
            (chunks ++ cs) ∧
          m ≤ data.size ∧ v.taken (.append data) = data.extract 0 m ∧
          (m = 0 ↔ v.staged.size = n ∧ bs = [])) ∧
        (v.flush.1 ≠ .ok () → ∃ e, v.Refuses e ∧ v.flush = (.error e, v.refused)) ∧
        (v.finish.1 ≠ .ok () → ∃ e, v.Refuses e ∧ v.finish = (.error e, v.refused)) ∧
        (v.staged.size = n → v.Retries Writer.flush ∧ v.Retries Writer.finish ∧
          ∀ data, 0 < data.size → v.Retries (·.append data)) ∧
        ∀ later x, (v.goOn later).2.finish = (.ok (), x) → ∃ file,
          contents x.inner = contents sink ++ file ∧
          ∀ source : τ, Source.FaultFree source → LawfulSource.contents source = file →
            (∃ r, Reader.start source codec = .ok r ∧
              r.Delivers (w.accepted (earlier ++ later))) ∧
            (Source.Seekable source → ∀ r, Reader.Opened source codec r → ∃ r',
              r.setCurrentOffset v.currentOffset = (.ok (), r') ∧
                r'.Delivers (v.accepted later)) := by
  have hbuffer : codec.maxCompressedSize n < Bytes.bufferLimit :=
    Nat.lt_of_le_of_lt (hc.mono _ _ hmax) (Nat.lt_trans hc.max_lt (by decide))
  obtain ⟨w, hw, hfresh, hfree⟩ := Writer.start_ok hs hpos hmax hbuffer
  refine ⟨w, hw, fun earlier v hv => ?_⟩
  obtain ⟨blocks, chunks, hext⟩ := Writer.extends_goOn hfresh.fits earlier
  have hstep := (hfresh.inStep hc).extend hext (hext.contents_eq (.inl hfree))
  rw [ByteArray.empty_append, List.nil_append, List.nil_append] at hstep
  rw [hv] at hext hstep
  have hsize : v.chunkSize.val = n := by rw [hext.chunkSize_eq, hfresh.chunkSize_eq]
  have hsink := hfree.of_reaches hext.reaches
  refine ⟨blocks, chunks, hstep, hsize ▸ hstep.staged_le, fun data hfail => ?_,
    hstep.flush_failed hsink, hstep.finish_failed hsink, fun hfull => ?_, fun later x hx => ?_⟩
  · have hfailed := hstep.append_failed hsink hfail
    rwa [hsize] at hfailed
  · have h0 : v.staged.size ≠ 0 := hfull ▸ Nat.ne_of_gt hpos
    exact ⟨hstep.retries_flush hsink h0, hstep.retries_finish hsink h0,
      fun data => hstep.retries_append hsink (hfull.trans hsize.symm)⟩
  · obtain ⟨bs, cs, hlater⟩ := Writer.extends_goOn hstep.staged_le later
    rw [Writer.finish_eq_ok] at hx
    obtain ⟨bs', cs', hflush⟩ := Writer.extends_flush (hlater.staged_le hstep.staged_le)
    rw [hx] at hflush
    have hrest := hlater.trans hflush
    rw [ByteArray.append_empty] at hrest
    rw [Writer.accepted_append, hv]
    exact hstep.reads hrest (hrest.contents_eq (.inl hsink)) (Writer.staged_of_flush hx)

/-- The first chunk is refused: of three bytes two are accepted, and the third is appended again. -/
theorem refused_chunks_are_retried_in_memory :
    ∃ (w v u x : Writer MemorySink) (e : TraceError) (r r' : Reader MemorySource),
      Writer.start (MemorySink.new .none) 2 (Codec.stored.refusing 1) = (.ok w, w.inner) ∧
      w.append ⟨#[104, 105, 33]⟩ = (.error e, v) ∧ v.append ⟨#[33]⟩ = (.ok (), u) ∧
      u.finish = (.ok (), x) ∧
      Reader.start (MemorySource.new x.inner.data .none) (Codec.stored.refusing 1) = .ok r ∧
      r.Delivers ⟨#[104, 105, 33]⟩ ∧
      (r.skip 1).2.setCurrentOffset v.currentOffset = (.ok (), r') ∧ r'.Delivers ⟨#[33]⟩ := by
  let w := Writer.onMemory (Codec.stored.refusing 1) ⟨2, by decide, by decide⟩
  let v := (w.stage ⟨#[104, 105]⟩).refused
  let block : ByteArray := ⟨#[2, 0, 0, 0, 104, 105]⟩
  let first : MemorySink := { v.inner with data := magic ++ Bytes.ofU32 block.size ++ block }
  let u := (v.putBlock block first).stage ⟨#[33]⟩
  let lastBlock : ByteArray := ⟨#[1, 0, 0, 0, 33]⟩
  let file := first.data ++ Bytes.ofU32 lastBlock.size ++ lastBlock
  have hstart : Writer.start (MemorySink.new .none) 2 (Codec.stored.refusing 1) =
      (.ok w, w.inner) := Writer.start_onMemory w.codec w.chunkSize (by decide)
  have hrefused : w.append ⟨#[104, 105, 33]⟩ =
      (.error (.corrupt (.codec "codec refused to compress")), v) :=
    Writer.append_of_refuses (by decide) (by decide) (by decide) rfl
  have hblock : v.codec.compress 1 ⟨#[104, 105]⟩ 6 = .ok block := rfl
  have hput : Writer.putEntry v.inner block = (.ok (), first) :=
    Writer.putEntry_onMemory rfl rfl block
  have hretry : v.append ⟨#[33]⟩ = (.ok (), u) := by
    rw [Writer.append_of_full rfl (by decide),
      Writer.flushChunk_of_put (by decide) hblock (by decide) hput, Writer.andThen_ok,
      Writer.append, Writer.appendFrom_stage (k := 1) (by decide) (by decide),
      Writer.appendFrom_end (by decide)]
    rfl
  have hlastBlock : u.codec.compress 2 ⟨#[33]⟩ 6 = .ok lastBlock := rfl
  have hlast : Writer.putEntry u.inner lastBlock = (.ok (), ⟨file, 0, false, .none⟩) :=
    Writer.putEntry_onMemory rfl rfl lastBlock
  have hfinish : u.finish = (.ok (), { u.putBlock lastBlock ⟨file, 0, false, .none⟩ with
      inner := ⟨file, 1, false, .none⟩ }) := by
    rw [Writer.finish, Writer.flush_eq,
      Writer.flushChunk_of_put (by decide) hlastBlock (by decide) hlast]
    rfl
  obtain ⟨w', hw', hruns⟩ := refused_chunks_are_retried (τ := MemorySource)
    (MemorySink.faultFree (s := .new .none) rfl) (Codec.faithful_stored.refusing 1) (n := 2)
    (by decide) (by decide)
  obtain rfl : w = w' := by
    rw [hstart] at hw'
    injection hw' with hw'
    injection hw'
  have hv : (w.goOn [.append ⟨#[104, 105, 33]⟩]).2 = v := by
    rw [Writer.goOn, Writer.perform, hrefused]
    rfl
  obtain ⟨-, -, -, -, -, -, -, -, hend⟩ := hruns [.append ⟨#[104, 105, 33]⟩] v hv
  have hu : (v.goOn [.append ⟨#[33]⟩]).2 = u := by
    rw [Writer.goOn, Writer.perform, hretry]
    rfl
  obtain ⟨_, hfile, hread⟩ := hend [.append ⟨#[33]⟩] _ (hu ▸ hfinish)
  obtain rfl : file = _ := hfile.trans ByteArray.empty_append
  have hsound : (MemorySource.new file .none).Sound := MemorySource.sound_new (by decide)
  obtain ⟨⟨r, hr, hall⟩, hseek⟩ := hread _ hsound.faultFree rfl
  obtain ⟨r', hr', hrest⟩ := hseek hsound.seekable _ (.call (.skip 1) (.start hr))
  have htaken : w.accepted [.append ⟨#[104, 105, 33]⟩, .append ⟨#[33]⟩] = ⟨#[104, 105, 33]⟩ := by
    simp only [Writer.accepted, Writer.taken, Writer.perform, hrefused, hretry]
    rfl
  have hlater : v.accepted [.append ⟨#[33]⟩] = ⟨#[33]⟩ := by
    simp only [Writer.accepted, Writer.taken, hretry]
    rfl
  rw [List.singleton_append, htaken] at hall
  rw [hlater] at hrest
  exact ⟨w, v, u, _, _, r, r', hstart, hrefused, hretry, hfinish, hr, hall, hr', hrest⟩

end TraceCapture
