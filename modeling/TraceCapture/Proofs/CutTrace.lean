import TraceCapture.Proofs.Reader.Seeking
import TraceCapture.Proofs.RoundTrip
import TraceCapture.Proofs.Trace.Cut

set_option autoImplicit false

namespace TraceCapture

theorem Writer.wrote_run {σ : Type} [LawfulSink σ] {sink : σ} (hs : Sink.FaultFree sink)
    {codec : Codec} (hc : codec.Lawful) {n : Nat} (hpos : 0 < n) (hmax : n ≤ maxChunkSize)
    (calls : List WriterCall) (ending : Ending) :
    ∃ w w' w'' blocks chunks, Writer.start sink n codec = (.ok w, w.inner) ∧
      w.performAll calls = (.ok (), w') ∧ ending.perform w' = (.ok (), w'') ∧
      Wrote w'' (LawfulSink.contents sink) blocks chunks ∧ w''.codec = codec ∧
      Bytes.concat chunks = WriterCall.bytes calls := by
  obtain ⟨w, hw, hcodec, hstaged, -, hwrote⟩ := wrote_start hs hc hpos hmax
  obtain ⟨w', bs, cs, hw', hformat, hwrote', hdata⟩ := hwrote.performAll calls
  obtain ⟨w'', new, hw'', hformat', -, hwrote''⟩ := hwrote'.perform_ending ending
  rw [List.nil_append, List.nil_append] at hwrote''
  refine ⟨w, w', w'', bs ++ new, cs ++ w'.stagedChunk, hw, hw', hw'', hwrote'', ?_, ?_⟩
  · rw [hformat'.codec_eq, hformat.codec_eq, hcodec]
  · rw [Bytes.concat_append, concat_stagedChunk, hdata, hstaged, ByteArray.empty_append]

namespace Reader

variable {σ : Type} [LawfulSource σ] {codec : Codec} {file : ByteArray} {chunks : List ByteArray}
  {p : Nat} {r : Reader σ}

theorem StandsAt.deliver (hd : codec.Decodes file magic.size chunks)
    (h : StandsAt codec file chunks r p) (calls : List ReadCall) :
    ∃ q, StandsAt codec file chunks (r.deliver calls).2 q := by
  obtain ⟨r', hr', q, -, hstands, -⟩ :=
    ((feeds_standsAt hd).deliver ⟨p, h.le_size, h, rfl⟩ calls).1 (.inr rfl)
  rw [hr']
  exact ⟨q, hstands⟩

theorem deliver_append {r' : Reader σ} {calls : List ReadCall} {bs : List ByteArray}
    (h : r.deliver calls = (.ok bs, r')) (more : List ReadCall) :
    (r.deliver (calls ++ more)).2 = (r'.deliver more).2 := by
  induction calls generalizing r bs with
  | nil =>
    cases h
    rfl
  | cons call calls ih =>
    rw [deliver] at h
    rw [List.cons_append, deliver]
    cases hcall : call.perform r with
    | mk o v =>
      rw [hcall] at h
      cases o with
      | ok b =>
        dsimp only at h ⊢
        cases hrest : v.deliver calls with
        | mk o' v' =>
          rw [hrest] at h
          cases o' <;> cases h
          exact ih hrest
      | error | panicked => cases h

theorem StandsAt.currentOffset_of_endOfData (h : StandsAt codec file chunks r p)
    (hend : r.endOfData = true) :
    r.currentOffset = ⟨Entry.after file magic.size chunks.length, 0⟩ := by
  obtain ⟨k, hcaches, rfl⟩ := h
  simp only [endOfData, Bool.and_eq_true] at hend
  obtain ⟨rfl, hsize⟩ := hcaches.exhausted hend.1
  have hcursor := hcaches.cursor_le
  rw [hsize] at hcursor
  rw [currentOffset, hcaches.chunk_eq, Nat.eq_zero_of_le_zero hcursor]

end Reader

/-- However a file is cut behind its magic, what is left reads as the chunks in front of the cut. -/
theorem cut_trace_reads_whole_chunks :
    (∀ e : Lz4.Engine, e.InvertsItself → e.codec.Lawful) ∧
    ∀ (σ τ ρ : Type) [LawfulSink σ] [LawfulSource τ] [LawfulSource ρ] (sink : σ) (codec : Codec)
      (n : Nat) (calls : List WriterCall) (ending : Ending),
      Sink.FaultFree sink → codec.Lawful → 0 < n → n ≤ maxChunkSize →
      ∃ w w' w'' file chunks,
        Writer.start sink n codec = (.ok w, w.inner) ∧
        w.performAll calls = (.ok (), w') ∧
        ending.perform w' = (.ok (), w'') ∧
        LawfulSink.contents w''.inner = LawfulSink.contents sink ++ file ∧
        codec.Decodes file magic.size chunks ∧
        Bytes.concat chunks = WriterCall.bytes calls ∧
        ∀ cut, magic.size ≤ cut → ∃ k ≤ chunks.length,
          (∀ j < chunks.length, Entry.after file magic.size (j + 1) ≤ cut ↔ j < k) ∧
          Bytes.concat (chunks.take k) =
            (WriterCall.bytes calls).extract 0 (Bytes.startOf chunks k) ∧
          ∀ source : τ, Source.FaultFree source →
            LawfulSource.contents source = file.extract 0 cut →
            ∃ r, Reader.start source codec = .ok r ∧ r.Delivers (Bytes.concat (chunks.take k)) ∧
              ∀ reads, (r.deliver reads).2.endOfData = true →
                ∀ whole : ρ, Source.Seekable whole → LawfulSource.contents whole = file →
                ∀ other, Reader.Opened whole codec other → ∃ other',
                  other.setCurrentOffset (r.deliver reads).2.currentOffset = (.ok (), other') ∧
                  other'.Delivers ((WriterCall.bytes calls).extract (Bytes.startOf chunks k)
                    (WriterCall.bytes calls).size) := by
  refine ⟨fun e => Lz4.Engine.InvertsItself.lawful, ?_⟩
  intro σ τ ρ _ _ _ sink codec n calls ending hs hc hpos hmax
  obtain ⟨w, w', w'', blocks, chunks, hw, hw', hw'', hwrote, hcodec, hall⟩ :=
    Writer.wrote_run hs hc hpos hmax calls ending
  have henc := hwrote.encodes
  rw [hcodec] at henc
  have hd := Codec.decodes_writtenAll hc.max_lt henc magic
  have hmagic : (magic ++ Entry.writtenAll blocks).extract 0 magic.size = magic :=
    ByteArray.extract_append_eq_left rfl
  refine ⟨w, w', w'', magic ++ Entry.writtenAll blocks, chunks, hw, hw', hw'', hwrote.contents_eq,
    hd, hall, fun cut hcut => ?_⟩
  obtain ⟨k, hk, hinside, hdcut, hafter⟩ := hd.cut cut
  refine ⟨k, hk, hinside, ?_, fun source hfree hcontents => ?_⟩
  · rw [← hall, Bytes.extract_zero_startOf]
  have hat : Source.At source ((magic ++ Entry.writtenAll blocks).extract 0 cut)
      (LawfulSource.position source) := ⟨hfree, hcontents, rfl⟩
  have hmagic' : ((magic ++ Entry.writtenAll blocks).extract 0 cut).extract 0 magic.size =
      magic := by
    rw [ByteArray.extract_extract, Nat.zero_add, Nat.zero_add, Nat.min_eq_left hcut, hmagic]
  obtain ⟨r, hr, hholds⟩ := Reader.start_holds hat hmagic' hdcut
  refine ⟨r, hr, hholds.delivers, fun reads hend whole hwhole hcontents' other hother => ?_⟩
  -- the end of what is left is a place of the whole file
  obtain ⟨q, hstands⟩ := (Reader.start_standsAt hdcut hmagic' hat hr).deliver hdcut reads
  rw [hstands.currentOffset_of_endOfData hend, List.length_take, Nat.min_eq_left hk, hafter]
  obtain ⟨other', hother', hstands'⟩ := (Reader.seek_standsAt hd hmagic hwhole hcontents'
    hother.over hk 0).1 (Nat.zero_le _)
  have hdelivers := hstands'.delivers hd
  rw [hall] at hdelivers
  exact ⟨other', hother', hdelivers⟩

/-- Three bytes in chunks of two, cut behind the ninth byte of the file: whatever is left of them is
delivered, and the whole file then goes on behind it. -/
theorem cut_trace_reads_whole_chunks_in_memory :
    ∃ w w' w'' k r r', Writer.start (MemorySink.new .none) 2 (.lz4 .checked) = (.ok w, w.inner) ∧
      w.performAll [.append ⟨#[104, 105, 33]⟩] = (.ok (), w') ∧ w'.finish = (.ok (), w'') ∧
      Reader.start (MemorySource.new (w''.inner.data.extract 0 9) .none) (.lz4 .checked) = .ok r ∧
      r.Delivers ((⟨#[104, 105, 33]⟩ : ByteArray).extract 0 k) ∧
      (r.deliver [.bytes 4, .byte]).2 = r' ∧ r'.endOfData = true ∧
      ∀ other, Reader.Opened (MemorySource.new w''.inner.data .none) (.lz4 .checked) other →
        ∃ other', other.setCurrentOffset r'.currentOffset = (.ok (), other') ∧
          other'.Delivers ((⟨#[104, 105, 33]⟩ : ByteArray).extract k 3) := by
  have hfree : Sink.FaultFree (MemorySink.new .none) := MemorySink.faultFree rfl
  obtain ⟨-, hrun⟩ := cut_trace_reads_whole_chunks
  obtain ⟨w, w', w'', file, chunks, hw, hw', hw'', hcontents, -, -, hcuts⟩ :=
    hrun MemorySink MemorySource MemorySource (MemorySink.new .none) (.lz4 .checked) 2
      [.append ⟨#[104, 105, 33]⟩] .finish hfree (Lz4.lawful_lz4 .checked) (by decide) (by decide)
  have hfile : w''.inner.data = file := hcontents.trans ByteArray.empty_append
  -- a second look at the same run bounds the size of its file
  have hlt : file.size < Word.max := by
    obtain ⟨v, v', v'', blocks, chunks', hv, hv', hv'', hwrote, -, hall⟩ := Writer.wrote_run hfree
      (Lz4.lawful_lz4 .checked) (n := 2) (by decide) (by decide)
      [.append ⟨#[104, 105, 33]⟩] .finish
    rw [hw] at hv
    cases hv
    rw [hw'] at hv'
    cases hv'
    rw [hw''] at hv''
    cases hv''
    have hsize := hwrote.size_le
    have heq : file = magic ++ Entry.writtenAll blocks :=
      hfile.symm.trans (hwrote.contents_eq.trans ByteArray.empty_append)
    rw [← heq, hall] at hsize
    exact Nat.lt_of_le_of_lt hsize (by decide)
  obtain ⟨k, -, -, hfront, hread⟩ := hcuts 9 (by decide)
  have hcut : (file.extract 0 9).size < Word.max := by
    rw [ByteArray.size_extract]
    omega
  obtain ⟨r, hr, hdelivers, hresume⟩ := hread (MemorySource.new (file.extract 0 9) .none)
    (MemorySource.sound_new hcut).faultFree rfl
  rw [hfront] at hdelivers
  have hsize : ((⟨#[104, 105, 33]⟩ : ByteArray).extract 0 (Bytes.startOf chunks k)).size ≤ 4 := by
    rw [ByteArray.size_extract]
    exact Nat.le_trans (Nat.sub_le _ _) (Nat.le_trans (Nat.min_le_right _ _) (by decide))
  obtain ⟨r₁, hr₁, hlast⟩ := hdelivers [.bytes 4]
  obtain ⟨r₂, hr₂, hend⟩ := hlast hsize .byte Nat.one_pos
  have hr' : (r.deliver [.bytes 4, .byte]).2 = r₂ := by
    refine (Reader.deliver_append hr₁ [.byte]).trans ?_
    rw [Reader.deliver, hr₂]
    rfl
  have hother := hresume [.bytes 4, .byte] (hr' ▸ hend) (MemorySource.new file .none)
    (MemorySource.sound_new hlt).seekable rfl
  rw [hr'] at hother
  rw [← hfile] at hother hr
  exact ⟨w, w', w'', _, r, r₂, hw, hw', hw'', hr, hdelivers, hr', hend, hother⟩

end TraceCapture
