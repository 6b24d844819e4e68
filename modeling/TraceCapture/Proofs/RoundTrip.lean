import TraceCapture.Proofs.Block.Lz4.Lawful
import TraceCapture.Proofs.Reader.Stream
import TraceCapture.Proofs.Stream.Memory
import TraceCapture.Proofs.Writer.File

set_option autoImplicit false

namespace TraceCapture

inductive Ending where
  | finish
  | drop

def Ending.perform {σ : Type} [Sink σ] (w : Writer σ) : Ending → Outcome TraceError Unit × Writer σ
  | finish => w.finish
  | drop => w.drop

theorem Writer.Wrote.perform_ending {σ : Type} [LawfulSink σ] {w : Writer σ} {before : ByteArray}
    {blocks chunks : List ByteArray} (h : Wrote w before blocks chunks) (ending : Ending) :
    ∃ w' new, ending.perform w = (.ok (), w') ∧ SameFormat w w' ∧ w'.staged = .empty ∧
      Wrote w' before (blocks ++ new) (chunks ++ w.stagedChunk) := by
  obtain ⟨w', new, hw', hformat, hempty, hwrote⟩ := h.flush
  refine ⟨w', new, ?_, hformat, hempty, hwrote⟩
  cases ending with
  | finish => rw [Ending.perform, finish, hw']
  | drop => rw [Ending.perform, drop, hw']

/-- Every entry of a file holds a block of a size that readers accept, which is not the zero that
ends a file, and in it a chunk of at most `n` bytes. -/
def Entry.AllAccepted (codec : Codec) (file : ByteArray) (n : Nat) : Prop :=
  ∀ e ∈ Entry.list file, 0 < e.block.size ∧ e.block.size < Bytes.u32Limit ∧
    e.block.size ≤ codec.maxCompressedSize maxChunkSize ∧
    ∃ size, codec.decompressedSize e.block = .ok size ∧ 0 < size ∧ size ≤ n ∧ size ≤ maxChunkSize

theorem Entry.allAccepted_writtenAll {codec : Codec} (h : codec.Lawful) {n : Nat}
    {blocks chunks : List ByteArray} (henc : List.Forall₂ codec.Encodes blocks chunks)
    (hsize : ∀ c ∈ chunks, 0 < c.size ∧ c.size ≤ n) :
    AllAccepted codec (magic ++ writtenAll blocks) n ∧
      (list (magic ++ writtenAll blocks)).length = blocks.length := by
  have chunk : ∀ b ∈ blocks, ∃ c ∈ chunks, codec.Encodes b c := by
    clear hsize
    induction henc with
    | nil => exact fun b hb => nomatch hb
    | @cons b c bs cs hbc _ ih =>
      intro b' hb'
      obtain rfl | hb' := List.mem_cons.mp hb'
      · exact ⟨c, List.mem_cons_self, hbc⟩
      · obtain ⟨c', hc', hbc'⟩ := ih b' hb'
        exact ⟨c', List.mem_cons_of_mem _ hc', hbc'⟩
  have hlimit : ∀ b ∈ blocks, 0 < b.size ∧ b.size < Bytes.u32Limit := by
    intro b hb
    obtain ⟨c, -, hbc⟩ := chunk b hb
    exact ⟨hbc.block_pos, Nat.lt_of_le_of_lt hbc.block_le h.max_lt⟩
  have hlist : (list (magic ++ writtenAll blocks)).map block = blocks :=
    listFrom_writtenAll magic blocks hlimit
  refine ⟨?_, ?_⟩
  · intro e he
    have hb : e.block ∈ blocks := hlist ▸ List.mem_map_of_mem he
    obtain ⟨c, hc, hbc⟩ := chunk e.block hb
    obtain ⟨hpos, hlt⟩ := hlimit e.block hb
    exact ⟨hpos, hlt, hbc.block_le, c.size, hbc.size_eq, (hsize c hc).1, (hsize c hc).2,
      hbc.size_le⟩
  · rw [← List.length_map, hlist]

theorem Writer.Wrote.size_le {σ : Type} [LawfulSink σ] {w : Writer σ} {before : ByteArray}
    {blocks chunks : List ByteArray} (h : Wrote w before blocks chunks) :
    (magic ++ Entry.writtenAll blocks).size ≤
      magic.size + (Bytes.concat chunks).size * (lengthSize + Bytes.u32Limit) := by
  have entry : ∀ {blocks chunks : List ByteArray},
      List.Forall₂ w.codec.Encodes blocks chunks → (∀ c ∈ chunks, 0 < c.size) →
      (Entry.writtenAll blocks).size ≤
        (Bytes.concat chunks).size * (lengthSize + Bytes.u32Limit) := by
    intro blocks chunks henc hpos
    induction henc with
    | nil => exact Nat.zero_le _
    | @cons b c bs cs hbc _ ih =>
      have hc := hpos c List.mem_cons_self
      have hrest := ih fun c hc => hpos c (List.mem_cons_of_mem _ hc)
      have hb := Nat.lt_of_le_of_lt hbc.block_le h.lawful.max_lt
      have hone := Nat.mul_le_mul_right (lengthSize + Bytes.u32Limit) hc
      rw [Entry.writtenAll_cons, ByteArray.size_append, Entry.size_written, Bytes.concat,
        ByteArray.size_append, Nat.add_mul]
      omega
  have := entry h.encodes fun c hc => (h.chunk_size c hc).1
  rw [ByteArray.size_append]
  omega

/-- Every trace reads back as it was written, with any lawful codec; LZ4 makes one of any engine
that inverts itself. -/
theorem write_read_round_trip :
    (∀ e : Lz4.Engine, e.InvertsItself → e.codec.Lawful) ∧
    (∀ p, (Lz4.engine p).InvertsItself ∧ (Lz4.engine p).codec = .lz4 p) ∧
    ∀ (σ τ : Type) [LawfulSink σ] [LawfulSource τ] (sink : σ) (codec : Codec) (n : Nat)
      (calls : List WriterCall) (ending : Ending),
      Sink.FaultFree sink → codec.Lawful → 0 < n → n ≤ maxChunkSize →
      ∃ w w' w'' file,
        Writer.start sink n codec = (.ok w, w.inner) ∧
        w.performAll calls = (.ok (), w') ∧
        ending.perform w' = (.ok (), w'') ∧
        LawfulSink.contents w''.inner = LawfulSink.contents sink ++ file ∧
        file.size ≤ magic.size + (WriterCall.bytes calls).size * (lengthSize + Bytes.u32Limit) ∧
        (Entry.list file).length = w''.chunksWritten ∧
        Entry.AllAccepted codec file n ∧
        ∀ source : τ, Source.FaultFree source → LawfulSource.contents source = file →
          ∃ r, Reader.start source codec = .ok r ∧ r.Delivers (WriterCall.bytes calls) := by
  refine ⟨fun e => Lz4.Engine.InvertsItself.lawful,
    fun p => ⟨Lz4.engine_invertsItself p, Lz4.codec_engine p⟩, ?_⟩
  intro σ τ _ _ sink codec n calls ending hs hc hpos hmax
  obtain ⟨w, hw, hcodec, hstaged, hsize, hwrote⟩ := Writer.wrote_start hs hc hpos hmax
  obtain ⟨w', bs, cs, hw', hformat, hwrote', hdata⟩ := hwrote.performAll calls
  obtain ⟨w'', new, hw'', hformat', -, hwrote''⟩ := hwrote'.perform_ending ending
  rw [List.nil_append, List.nil_append] at hwrote''
  -- the ending leaves nothing staged, so the chunks hold all bytes
  have hall : Bytes.concat (cs ++ w'.stagedChunk) = WriterCall.bytes calls := by
    rw [Bytes.concat_append, Writer.concat_stagedChunk, hdata, hstaged, ByteArray.empty_append]
  have hcodec'' : w''.codec = codec := by
    rw [hformat'.codec_eq, hformat.codec_eq, hcodec]
  have hchunk'' : w''.chunkSize.val = n := by
    rw [hformat'.chunkSize_eq, hformat.chunkSize_eq, hsize]
  have henc := hwrote''.encodes
  have hchunks := hwrote''.chunk_size
  rw [hcodec''] at henc
  rw [hchunk''] at hchunks
  obtain ⟨haccepted, hlength⟩ := Entry.allAccepted_writtenAll hc henc hchunks
  refine ⟨w, w', w'', magic ++ Entry.writtenAll (bs ++ new), hw, hw', hw'', hwrote''.contents_eq,
    ?_, ?_, haccepted, ?_⟩
  · have := hwrote''.size_le
    rwa [hall] at this
  · rw [hlength, hwrote''.chunksWritten_eq]
  · intro source hfree hcontents
    have hmagic : (magic ++ Entry.writtenAll (bs ++ new)).extract 0 magic.size = magic := by
      rw [Bytes.extract_append_left _ (Nat.le_refl _), ByteArray.extract_zero_size]
    obtain ⟨r, hr, hholds⟩ := Reader.start_holds ⟨hfree, hcontents, rfl⟩ hmagic
      (Codec.decodes_writtenAll hc.max_lt henc magic)
    rw [hall] at hholds
    exact ⟨r, hr, hholds.delivers⟩

theorem write_read_round_trip_in_memory :
    ∃ w w' w'' r,
      Writer.start (MemorySink.new .none) 2 (.lz4 .checked) = (.ok w, w.inner) ∧
      w.performAll [.append ⟨#[104]⟩, .flush, .append ⟨#[105, 33]⟩] = (.ok (), w') ∧
      w'.drop = (.ok (), w'') ∧
      Reader.start (MemorySource.new w''.inner.data .none) (.lz4 .checked) = .ok r ∧
      r.Delivers ⟨#[104, 105, 33]⟩ := by
  obtain ⟨hlawful, hengine, h⟩ := write_read_round_trip
  have hc : (Codec.lz4 .checked).Lawful :=
    (hengine .checked).2 ▸ hlawful (Lz4.engine .checked) (hengine .checked).1
  obtain ⟨w, w', w'', file, hw, hw', hw'', hcontents, hsize, -, -, hread⟩ :=
    h MemorySink MemorySource (MemorySink.new .none) (.lz4 .checked) 2
      [.append ⟨#[104]⟩, .flush, .append ⟨#[105, 33]⟩] .drop
      (MemorySink.faultFree rfl) hc (by decide) (by decide)
  have hfile : w''.inner.data = file := hcontents.trans ByteArray.empty_append
  have hlt : file.size < Word.max := Nat.lt_of_le_of_lt hsize (by decide)
  obtain ⟨r, hr, hdelivers⟩ := hread (MemorySource.new file .none)
    (MemorySource.sound_new hlt).faultFree rfl
  exact ⟨w, w', w'', r, hw, hw', hw'', hfile ▸ hr, hdelivers⟩

end TraceCapture
