import TraceCapture.Proofs.Block.Lz4.Lawful
import TraceCapture.Proofs.Reader.Stream
import TraceCapture.Proofs.Stream.Memory
import TraceCapture.Proofs.Writer.Failures

set_option autoImplicit false

namespace TraceCapture

open LawfulSink

/-- What the sink took behind `before` opens in every source, and reads as the bytes given without
those that are still staged. -/
def Writer.ReadsAs {σ : Type} [LawfulSink σ] (τ : Type) [LawfulSource τ] (codec : Codec)
    (w : Writer σ) (before given : ByteArray) : Prop :=
  ∃ data, data ++ w.staged = given ∧
    ∀ source : τ, Source.FaultFree source →
      contents w.inner = before ++ LawfulSource.contents source →
      ∃ r, Reader.start source codec = .ok r ∧ r.Delivers data

theorem Writer.Legible.readsAs {σ τ : Type} [LawfulSink σ] [LawfulSource τ] {codec : Codec}
    {w : Writer σ} {before given : ByteArray} (h : Legible codec w before given) :
    ReadsAs τ codec w before given := by
  obtain ⟨file, chunks, hfile, hmagic, hd, hgiven⟩ := h
  refine ⟨Bytes.concat chunks, hgiven, fun source hfree hcontents => ?_⟩
  rw [hfile] at hcontents
  have hsource : LawfulSource.contents source = file :=
    (ByteArray.append_right_inj before).mp hcontents.symm
  obtain ⟨r, hr, hholds⟩ := Reader.start_holds ⟨hfree, hsource, rfl⟩ hmagic hd
  exact ⟨r, hr, hholds.delivers⟩

/-- A trace reads as long as its writer's position counts every byte that the sink took, and then
still after one more call, whatever the sink does. -/
theorem trace_reads_while_position_counts_all {σ τ : Type} [LawfulSink σ] [LawfulSource τ]
    {sink s : σ} {codec : Codec} {n : Nat} {w : Writer σ} (hc : codec.Lawful)
    (hstart : Writer.start sink n codec = (.ok w, s)) (calls : List WriterCall) :
    let v := (w.goOn calls).2
    ∃ given, WriterCall.Takes calls (w.goOn calls).1 given ∧
      (contents sink).size + v.position ≤ (contents v.inner).size ∧
      ((contents v.inner).size = (contents sink).size + v.position →
        v.ReadsAs τ codec (contents sink) given ∧
        (∀ call, ∃ taken, WriterCall.Takes [call] [(v.perform call).1] taken ∧
          (v.perform call).2.ReadsAs τ codec (contents sink) (given ++ taken)) ∧
        v.drop.2.ReadsAs τ codec (contents sink) given ∧
        ((∀ p, v.finish.1 ≠ .panicked p) →
          v.finish.2.ReadsAs τ codec (contents sink) given) ∧
        (v.finish.1 = .ok () → v.finish.2.staged = .empty)) := by
  intro v
  obtain ⟨hkept, -⟩ := Writer.kept_start hc hstart
  obtain ⟨given, htakes, hgoes⟩ := hkept.goOn calls
  rw [ByteArray.empty_append] at hgoes
  refine ⟨given, htakes, hgoes.position_le, fun hwhole => ?_⟩
  cases hflush : v.flush with
  | mk o u =>
    obtain ⟨-, hempty, hleft⟩ := hgoes.flush hflush
    have hlegible := (hleft hwhole).1
    refine ⟨(hgoes.legible hwhole).readsAs, fun call => ?_, ?_, ?_, ?_⟩
    · obtain ⟨taken, htaken, -, hnext⟩ := hgoes.perform call
      exact ⟨taken, htaken, (hnext hwhole).readsAs⟩
    · rw [Writer.drop, hflush]
      cases o <;> exact Writer.Legible.readsAs hlegible
    · rw [Writer.finish, hflush]
      intro hno
      cases o with
      | ok | error => exact hlegible.readsAs
      | panicked p => exact absurd rfl (hno p)
    · rw [Writer.finish, hflush]
      intro hok
      cases o with
      | ok => exact hempty rfl
      | error | panicked => cases hok

theorem trace_reads_while_position_counts_all_up_to_a_limit :
    ∃ w m, Writer.start (MemorySink.new ⟨false, none, none, none, some 8, none⟩) 4 (.lz4 .checked) =
        (.ok w, w.inner) ∧ m ≤ 4 ∧
      (w.append ⟨#[1, 2, 3, 4]⟩).2.ReadsAs MemorySource (.lz4 .checked) .empty
        ((⟨#[1, 2, 3, 4]⟩ : ByteArray).extract 0 m) := by
  let w : Writer MemorySink := {
    inner := ⟨magic, 0, false, ⟨false, none, none, none, some 8, none⟩⟩
    codec := .lz4 .checked
    chunkSize := ⟨4, by decide, by decide⟩
    staged := .empty
    position := 2
    chunksWritten := 0
    compressions := 0
    log := #[] }
  have hmagic : Sink.writeAll (MemorySink.new ⟨false, none, none, none, some 8, none⟩) magic =
      (.ok (), w.inner) := Sink.writeAll_of_writeFor (k := 2) rfl
  have hstart : Writer.start (MemorySink.new ⟨false, none, none, none, some 8, none⟩) 4
      (.lz4 .checked) = (.ok w, w.inner) :=
    Writer.start_of_write w.codec w.chunkSize (by decide) hmagic
  obtain ⟨given, htakes, -, hreads⟩ := trace_reads_while_position_counts_all (τ := MemorySource)
    (Lz4.lawful_lz4 .checked) hstart []
  obtain ⟨-, hcall, -⟩ := hreads rfl
  cases htakes
  obtain ⟨taken, htakes, hnext⟩ := hcall (.append ⟨#[1, 2, 3, 4]⟩)
  cases htakes with
  | append hm _ hnil =>
    cases hnil
    rw [ByteArray.empty_append, ByteArray.append_empty] at hnext
    exact ⟨w, _, hstart, hm, hnext⟩

def fourBytesBlock : ByteArray := ⟨#[4, 0, 0, 0, 64, 1, 2, 3, 4]⟩

def tornSink : MemorySink := ⟨⟨#[97, 116, 9, 0, 0, 0]⟩, 0, false, .none⟩

def spoiltSink : MemorySink :=
  ⟨⟨#[97, 116, 9, 0, 0, 0, 9, 0, 0, 0, 4, 0, 0, 0, 64, 1, 2, 3, 4]⟩, 0, false, .none⟩

theorem putEntry_tornSink :
    Writer.putEntry (⟨magic, 0, false, ⟨false, none, none, some 8, none, none⟩⟩ : MemorySink)
        fourBytesBlock = (.panicked .sinkPanicked, tornSink) ∧
      Writer.putEntry tornSink fourBytesBlock = (.ok (), spoiltSink) := by
  have hlength : Sink.writeAll
      (⟨magic, 0, false, ⟨false, none, none, some 8, none, none⟩⟩ : MemorySink) (Bytes.ofU32 9) =
        (.ok (), { tornSink with faults := ⟨false, none, none, some 8, none, none⟩ }) :=
    Sink.writeAll_of_writeFor (k := 2) rfl
  have hpanic : Sink.writeAll
      ({ tornSink with faults := ⟨false, none, none, some 8, none, none⟩ } : MemorySink)
        fourBytesBlock = (.panicked .sinkPanicked, tornSink) :=
    Sink.writeAll_of_writeFor (k := 2) rfl
  have hagain : Sink.writeAll tornSink (Bytes.ofU32 9) =
      (.ok (), { tornSink with data := ⟨#[97, 116, 9, 0, 0, 0, 9, 0, 0, 0]⟩ }) :=
    Sink.writeAll_of_writeFor (k := 2) rfl
  have hblock : Sink.writeAll
      { tornSink with data := ⟨#[97, 116, 9, 0, 0, 0, 9, 0, 0, 0]⟩ } fourBytesBlock =
        (.ok (), spoiltSink) := Sink.writeAll_of_writeFor (k := 2) rfl
  exact ⟨Writer.putEntry_of_writes hlength hpanic, Writer.putEntry_of_writes hagain hblock⟩

/-- The sink panics between a length and its block, and the writer then finishes without an error:
the length stands twice in the file, which does not open. -/
theorem finished_trace_spoilt_by_retry :
    (Codec.lz4 .checked).Lawful ∧
    ∃ w w' w'', Writer.start (MemorySink.new ⟨false, none, none, some 8, none, none⟩) 4
        (.lz4 .checked) = (.ok w, w.inner) ∧
      w.append ⟨#[1, 2, 3, 4]⟩ = (.panicked .sinkPanicked, w') ∧
      w'.position < w'.inner.data.size ∧
      w'.finish = (.ok (), w'') ∧
      (Reader.start (MemorySource.new w''.inner.data .none) (.lz4 .checked)).map (fun _ => ()) =
        .error (.decompression .offsetZero) := by
  let w : Writer MemorySink := {
    inner := ⟨magic, 0, false, ⟨false, none, none, some 8, none, none⟩⟩
    codec := .lz4 .checked
    chunkSize := ⟨4, by decide, by decide⟩
    staged := .empty
    position := 2
    chunksWritten := 0
    compressions := 0
    log := #[] }
  let failed : Writer MemorySink :=
    { w with staged := ⟨#[1, 2, 3, 4]⟩, compressions := 1, inner := tornSink }
  have hblock : ∀ call, (Codec.lz4 .checked).compress call ⟨#[1, 2, 3, 4]⟩
      ((Codec.lz4 .checked).maxCompressedSize 4) = .ok fourBytesBlock := by
    with_unfolding_all exact fun _ => rfl
  have hmagic : Sink.writeAll (MemorySink.new ⟨false, none, none, some 8, none, none⟩) magic =
      (.ok (), w.inner) := Sink.writeAll_of_writeFor (k := 2) rfl
  have hstart : Writer.start (MemorySink.new ⟨false, none, none, some 8, none, none⟩) 4
      (.lz4 .checked) = (.ok w, w.inner) :=
    Writer.start_of_write w.codec w.chunkSize (by decide) hmagic
  obtain ⟨hput, hretry⟩ := putEntry_tornSink
  have happend : w.append ⟨#[1, 2, 3, 4]⟩ = (.panicked .sinkPanicked, failed) := by
    have hflush := Writer.flushChunk_of_put_failed (w := w.stage ⟨#[1, 2, 3, 4]⟩)
      (by decide) (hblock 0) (by decide) hput (by simp)
    rw [Writer.append, Writer.appendFrom_fill (by decide) (by decide)]
    exact congrArg (fun r => Writer.andThen r _) hflush
  have hfinish : failed.finish =
      (.ok (), { failed.putBlock fourBytesBlock spoiltSink with
        inner := { spoiltSink with flushes := 1 } }) := by
    rw [Writer.finish, Writer.flush_eq,
      Writer.flushChunk_of_put (by decide) (hblock 1) (by decide) hretry]
    rfl
  refine ⟨Lz4.lawful_lz4 .checked, w, failed, _, hstart, happend, by decide, hfinish, ?_⟩
  have hsound : (MemorySource.new spoiltSink.data .none).Sound := MemorySource.sound_new (by decide)
  obtain ⟨inner, length, hat, hopens⟩ :=
    (Reader.start_eq ⟨hsound.faultFree, rfl, rfl⟩ (.lz4 .checked)).2 rfl
  have hentry : (Codec.lz4 .checked).entryAt? spoiltSink.data 2 =
      .ok (some ⟨2, ⟨#[9, 0, 0, 0, 4, 0, 0, 0, 64]⟩⟩) := by with_unfolding_all rfl
  have hbad : (Lz4.decompress .checked ⟨#[9, 0, 0, 0, 4, 0, 0, 0, 64]⟩ 9).ending =
      .error (.decompression .offsetZero) := by with_unfolding_all rfl
  have hload := Reader.loadChunk_decoding (r := Reader.fresh inner (.lz4 .checked) length) hat
    hentry rfl (by decide : 0 < 9)
  rw [hopens, hload.trans hbad]
  rfl

end TraceCapture
