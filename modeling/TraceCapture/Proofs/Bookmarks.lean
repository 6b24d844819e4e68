import Mathlib.Data.List.GetD
import Mathlib.Order.Basic
import TraceCapture.Proofs.CutTrace
import TraceCapture.Proofs.Writer.Steps

set_option autoImplicit false

namespace TraceCapture

namespace Writer

variable {σ : Type}

/-- What an ending writes is the first chunk behind a moment if nothing was written since. -/
theorem size_headD_stagedChunk (cs : List ByteArray) (w : Writer σ) :
    ((cs ++ w.stagedChunk).headD .empty).size = (cs.headD w.staged).size := by
  cases cs with
  | nil =>
    unfold stagedChunk
    split
    · next h0 => exact h0.symm
    · rfl
  | cons c cs => rfl

variable [LawfulSink σ] {w w' : Writer σ} {before data : ByteArray}
  {blocks chunks : List ByteArray}

/-- Steps write chunks of what was staged and of what they stage. All that was staged is in the
first of these, or still staged if there is none. -/
theorem Wrote.steps (h : Wrote w before blocks chunks) (hsteps : Steps w data w') :
    ∃ bs cs, Wrote w' before (blocks ++ bs) (chunks ++ cs) ∧
      Bytes.concat cs ++ w'.staged = w.staged ++ data ∧
      w.staged.size ≤ (cs.headD w'.staged).size := by
  induction hsteps generalizing blocks chunks with
  | refl w =>
    refine ⟨[], [], by rwa [List.append_nil, List.append_nil], ?_, Nat.le_refl _⟩
    rw [Bytes.concat, ByteArray.empty_append, ByteArray.append_empty]
  | stage piece hroom _ ih =>
    have hstage : Wrote (Writer.stage _ piece) before blocks chunks :=
      { h with staged_le := stage_fits h.staged_le hroom }
    obtain ⟨bs, cs, hwrote, hdata, hhead⟩ := ih hstage
    refine ⟨bs, cs, hwrote, ?_, ?_⟩
    · rw [hdata, ← ByteArray.append_assoc]
      rfl
    · rw [size_stage] at hhead
      omega
  | @flushChunk w v w' data hflush _ ih =>
    obtain ⟨u, new, hu, -, hempty, hwrote⟩ := h.flushChunk
    rw [hflush] at hu
    cases hu
    obtain ⟨bs, cs, hwrote', hdata, -⟩ := ih hwrote
    rw [List.append_assoc, List.append_assoc] at hwrote'
    refine ⟨new ++ bs, w.stagedChunk ++ cs, hwrote', ?_, ?_⟩
    · rw [hempty, ByteArray.empty_append] at hdata
      rw [Bytes.concat_append, ByteArray.append_assoc, hdata, concat_stagedChunk]
    · unfold stagedChunk
      split
      · omega
      · exact Nat.le_refl _
  | @flushSink w w' inner data hflush _ ih =>
    have hinner : inner = (Sink.flush w.inner).2 := (congrArg Prod.snd hflush).symm
    have hfree : Sink.FaultFree inner := by
      rw [hinner]
      exact h.faultFree.of_reaches (.flush .refl)
    exact ih (h.of_inner hfree (hinner ▸ LawfulSink.contents_flush _))

/-- Whatever is written next, the offset of a writer is the place behind the entries so far, and as
many bytes into the chunk there as are staged. -/
theorem Wrote.currentOffset (h : Wrote w before blocks chunks) (rest : ByteArray) :
    w.currentOffset =
      ⟨Entry.after (magic ++ (Entry.writtenAll blocks ++ rest)) magic.size chunks.length,
        w.staged.size⟩ := by
  have hlt := Codec.blocks_lt h.lawful.max_lt h.encodes
  rw [Writer.currentOffset, h.position_eq, ← h.encodes.length_eq,
    Entry.after_writtenAll hlt magic rest]

end Writer

namespace Reader

variable {σ : Type} [LawfulSource σ] {source : σ} {codec : Codec} {file staged data : ByteArray}
  {chunks more : List ByteArray} {r : Reader σ}

theorem seek_behind (hd : codec.Decodes file magic.size (chunks ++ more))
    (hmagic : file.extract 0 magic.size = magic) (hs : Source.Seekable source)
    (hc : LawfulSource.contents source = file) (hr : Opened source codec r)
    (hmore : Bytes.concat more = staged ++ data)
    (hfirst : staged.size ≤ (more.headD .empty).size) :
    ∃ r', r.setCurrentOffset ⟨Entry.after file magic.size chunks.length, staged.size⟩ =
      (.ok (), r') ∧ r'.Delivers data := by
  have hwithin : staged.size ≤ ((chunks ++ more).getD chunks.length .empty).size := by
    rw [List.getD_append_right _ _ _ _ (Nat.le_refl _), Nat.sub_self]
    cases more with
    | nil => exact hfirst
    | cons c more => exact hfirst
  have hstart : Bytes.startOf (chunks ++ more) chunks.length + staged.size =
      (Bytes.concat chunks ++ staged).size := by
    rw [Bytes.startOf, List.take_left, ByteArray.size_append]
  obtain ⟨r', hr', hstands⟩ := (seek_standsAt hd hmagic hs hc hr.over
    (k := chunks.length) (by rw [List.length_append]; omega) staged.size).1 hwithin
  have hdelivers := hstands.delivers hd
  rw [hstart, Bytes.concat_append, hmore, ← ByteArray.append_assoc,
    ByteArray.extract_append_eq_right rfl ByteArray.size_append] at hdelivers
  exact ⟨r', hr', hdelivers⟩

end Reader

/-- At every moment of a run the offset of the writer is one that readers of the finished file
accept, and it takes them to the byte that was appended next. Right after a flush it is also the
offset of every reader that met the end of the file so far. -/
theorem bookmarks_are_reader_offsets {σ τ : Type} [LawfulSink σ] [LawfulSource τ] {sink : σ}
    {codec : Codec} {n : Nat} (hs : Sink.FaultFree sink) (hc : codec.Lawful) (hpos : 0 < n)
    (hmax : n ≤ maxChunkSize) (earlier later : List WriterCall) (ending : Ending) :
    ∃ w v w' w'' file,
      Writer.start sink n codec = (.ok w, w.inner) ∧
      w.performAll earlier = (.ok (), v) ∧
      v.performAll later = (.ok (), w') ∧
      ending.perform w' = (.ok (), w'') ∧
      LawfulSink.contents w''.inner = LawfulSink.contents sink ++ file ∧
      file.size ≤ magic.size +
        (WriterCall.bytes (earlier ++ later)).size * (lengthSize + Bytes.u32Limit) ∧
      (∀ source : τ, Source.FaultFree source → Source.Seekable source →
        LawfulSource.contents source = file →
        (∃ r, Reader.start source codec = .ok r) ∧
        ∀ r, Reader.Opened source codec r → ∃ r',
          r.setCurrentOffset v.currentOffset = (.ok (), r') ∧
            r'.Delivers (WriterCall.bytes later)) ∧
      ∀ calls, earlier = calls ++ [.flush] → ∃ soFar chunks,
        LawfulSink.contents v.inner = LawfulSink.contents sink ++ soFar ∧
        codec.Decodes soFar magic.size chunks ∧
        Bytes.concat chunks = WriterCall.bytes calls ∧
        ∀ source : τ, Source.FaultFree source → Source.Seekable source →
          LawfulSource.contents source = soFar →
          (∃ r, Reader.start source codec = .ok r ∧ r.Delivers (WriterCall.bytes calls)) ∧
          ∀ r p, Reader.Arrived source codec soFar chunks r p → r.endOfData = true →
            r.currentOffset = v.currentOffset := by
  obtain ⟨w, hw, hcodec, hstaged, -, hwrote⟩ := Writer.wrote_start hs hc hpos hmax
  obtain ⟨v, bs, cs, hv, hformat, hwrote', hdata⟩ := hwrote.performAll earlier
  rw [List.nil_append, List.nil_append] at hwrote'
  rw [hstaged, ByteArray.empty_append] at hdata
  obtain ⟨w', -, -, hw', hformat', -⟩ := hwrote'.performAll later
  obtain ⟨bs', cs', hwrote'', hdata', hfirst⟩ := hwrote'.steps (.of_performAll hw')
  obtain ⟨w'', new, hw'', hformat'', -, hend⟩ := hwrote''.perform_ending ending
  rw [List.append_assoc, List.append_assoc] at hend
  have hlater : Bytes.concat (cs' ++ w'.stagedChunk) = v.staged ++ WriterCall.bytes later := by
    rw [Bytes.concat_append, Writer.concat_stagedChunk, hdata']
  have hmagic : ∀ rest, (magic ++ rest).extract 0 magic.size = magic :=
    fun rest => ByteArray.extract_append_eq_left rfl
  refine ⟨w, v, w', w'', magic ++ Entry.writtenAll (bs ++ (bs' ++ new)), hw, hv, hw', hw'',
    hend.contents_eq, ?_, fun source hfree hseek hcontents => ?_, ?_⟩
  · have hsize := hend.size_le
    rwa [Bytes.concat_append, hlater, ← ByteArray.append_assoc, hdata,
      ← WriterCall.bytes_append] at hsize
  · have henc := hend.encodes
    rw [hformat''.codec_eq, hformat'.codec_eq, hformat.codec_eq, hcodec] at henc
    have hd := Codec.decodes_writtenAll hc.max_lt henc magic
    obtain ⟨r, hr, -⟩ := Reader.start_holds ⟨hfree, hcontents, rfl⟩ (hmagic _) hd
    refine ⟨⟨r, hr⟩, fun r hr => ?_⟩
    have hwhere := hwrote'.currentOffset (Entry.writtenAll (bs' ++ new))
    rw [← Entry.writtenAll_append] at hwhere
    rw [hwhere]
    exact Reader.seek_behind hd (hmagic _) hseek hcontents hr hlater
      (hfirst.trans_eq (Writer.size_headD_stagedChunk cs' w').symm)
  · rintro calls rfl
    have hempty : v.staged = .empty := by
      rw [Writer.performAll_append, Writer.andThen_eq_ok] at hv
      obtain ⟨u, -, hflush⟩ := hv
      rw [Writer.performAll_singleton] at hflush
      exact Writer.staged_of_flush hflush
    have henc := hwrote'.encodes
    rw [hformat.codec_eq, hcodec] at henc
    have hd := Codec.decodes_writtenAll hc.max_lt henc magic
    have hall : Bytes.concat cs = WriterCall.bytes calls := by
      rw [hempty, ByteArray.append_empty, WriterCall.bytes_append] at hdata
      rw [hdata]
      exact ByteArray.append_empty
    refine ⟨_, cs, hwrote'.contents_eq, hd, hall, fun source hfree hseek hcontents => ⟨?_, ?_⟩⟩
    · obtain ⟨r, hr, hholds⟩ := Reader.start_holds ⟨hfree, hcontents, rfl⟩ (hmagic _) hd
      rw [hall] at hholds
      exact ⟨r, hr, hholds.delivers⟩
    · intro r p hr hmet
      have hwhere := hwrote'.currentOffset .empty
      rw [ByteArray.append_empty, hempty] at hwhere
      rw [hwhere]
      exact (hr.standsAt hd (hmagic _) hseek
        ⟨hfree, hcontents, rfl⟩).currentOffset_of_endOfData hmet

/-- A bookmark with one byte staged, which a flush then makes the end of a chunk. -/
theorem bookmarks_are_reader_offsets_in_memory :
    ∃ w v w' w'' r r',
      Writer.start (MemorySink.new .none) 2 (.lz4 .checked) = (.ok w, w.inner) ∧
      w.performAll [.append ⟨#[104]⟩] = (.ok (), v) ∧
      v.performAll [.flush, .append ⟨#[105, 33]⟩] = (.ok (), w') ∧
      w'.finish = (.ok (), w'') ∧
      Reader.start (MemorySource.new w''.inner.data .none) (.lz4 .checked) = .ok r ∧
      (r.skip 3).2.setCurrentOffset v.currentOffset = (.ok (), r') ∧
      r'.Delivers ⟨#[105, 33]⟩ := by
  have hfree : Sink.FaultFree (MemorySink.new .none) := MemorySink.faultFree rfl
  obtain ⟨w, v, w', w'', file, hw, hv, hw', hw'', hcontents, hsize, hread, -⟩ :=
    bookmarks_are_reader_offsets (τ := MemorySource) hfree (Lz4.lawful_lz4 .checked) (n := 2)
      (by decide) (by decide) [.append ⟨#[104]⟩] [.flush, .append ⟨#[105, 33]⟩] .finish
  have hfile : w''.inner.data = file := hcontents.trans ByteArray.empty_append
  have hsound : (MemorySource.new file .none).Sound :=
    MemorySource.sound_new (Nat.lt_of_le_of_lt hsize (by decide))
  obtain ⟨⟨r, hr⟩, hseek⟩ := hread _ hsound.faultFree hsound.seekable rfl
  obtain ⟨r', hr', hdelivers⟩ := hseek _ (.call (.skip 3) (.start hr))
  exact ⟨w, v, w', w'', r, r', hw, hv, hw', hw'', hfile ▸ hr, hr', hdelivers⟩

end TraceCapture
