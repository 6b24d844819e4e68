import TraceCapture.Proofs.Block.Lz4.Lawful
import TraceCapture.Proofs.Stream.Memory
import TraceCapture.Proofs.Writer.Extension

set_option autoImplicit false

namespace TraceCapture

open LawfulSink

/-- The codec never fails a writer of chunks of up to `n` bytes: there is a buffer for its blocks,
and it has a block for every chunk. -/
structure Codec.FaultFree (codec : Codec) (n : Nat) : Prop where
  buffer_lt : codec.maxCompressedSize n < Bytes.bufferLimit
  compress_ok : ∀ call chunk, 0 < chunk.size → chunk.size ≤ n →
    ∃ block, codec.compress call chunk (codec.maxCompressedSize n) = .ok block ∧
      block.size < Bytes.u32Limit

theorem Codec.Lawful.faultFree {codec : Codec} (h : codec.Lawful) {n : Nat}
    (hn : n ≤ maxChunkSize) : codec.FaultFree n where
  buffer_lt := h.buffer_lt hn
  compress_ok call chunk hpos hle := by
    obtain ⟨block, hblock⟩ := h.compress_ok call chunk (codec.maxCompressedSize n) hpos
      (Nat.le_trans hle hn) (h.mono _ _ hle)
    have hmax := (h.encodes hpos (Nat.le_trans hle hn) hblock).block_le
    exact ⟨block, hblock, Nat.lt_of_le_of_lt hmax h.max_lt⟩

namespace Writer

variable {σ : Type}

/-- Appending piece after piece is appending them together. -/
theorem performAll_map_append [Sink σ] (w : Writer σ) (pieces : List ByteArray) :
    w.performAll (pieces.map .append) = w.append (Bytes.concat pieces) := by
  induction pieces generalizing w with
  | nil => exact (append_empty w).symm
  | cons piece pieces ih =>
    rw [Bytes.concat, append_append, List.map_cons, performAll]
    exact congrArg _ (funext ih)

variable [LawfulSink σ]

structure Sound (w : Writer σ) : Prop where
  sink : Sink.FaultFree w.inner
  codec : w.codec.FaultFree w.chunkSize.val
  short : w.staged.size < w.chunkSize.val

variable {w v : Writer σ} {data : ByteArray} {bs cs : List ByteArray}

theorem Sound.extend (h : Sound w) (hext : Extends w v data bs cs)
    (hshort : v.staged.size < v.chunkSize.val) : Sound v := by
  refine ⟨h.sink.of_reaches hext.reaches, ?_, hshort⟩
  rw [hext.codec_eq, hext.chunkSize_eq]
  exact h.codec

theorem flushChunk_ok (hs : Sink.FaultFree w.inner) (hc : w.codec.FaultFree w.chunkSize.val)
    (hfit : w.staged.size ≤ w.chunkSize.val) : ∃ v, w.flushChunk = (.ok (), v) := by
  by_cases h0 : w.staged.size = 0
  · exact ⟨w, flushChunk_of_empty h0⟩
  · obtain ⟨block, hblock, hlimit⟩ :=
      hc.compress_ok w.compressions w.staged (Nat.pos_of_ne_zero h0) hfit
    exact ⟨_, flushChunk_of_put h0 hblock hlimit (putEntry_ok hs block)⟩

theorem Sound.append (h : Sound w) (data : ByteArray) :
    ∃ v bs cs, w.append data = (.ok (), v) ∧ Extends w v data bs cs ∧
      (∀ c ∈ cs, c.size = w.chunkSize.val) ∧ Sound v := by
  have hfit := Nat.le_of_lt h.short
  rcases hr : w.append data with ⟨o, x⟩
  cases appends_append hfit hr with
  | @done _ bs cs hext _ hfull hshort =>
    rw [ByteArray.extract_zero_size] at hext
    refine ⟨x, bs, cs, rfl, hext, hfull, h.extend hext ?_⟩
    rw [hext.chunkSize_eq]
    rcases Nat.eq_zero_or_pos data.size with h0 | hpos
    · -- nothing was appended, so nothing more is staged
      have hbytes := congrArg ByteArray.size hext.bytes_eq
      have hlt := h.short
      simp only [ByteArray.size_append] at hbytes
      omega
    · exact hshort hpos
  | @stuck m v _ bs cs _ _ _ hext _ _ hfilled hflush ho =>
    obtain ⟨u, hu⟩ := flushChunk_ok (h.sink.of_reaches hext.reaches)
      (by rw [hext.codec_eq, hext.chunkSize_eq]; exact h.codec) (hext.staged_le hfit)
    rw [hflush] at hu
    exact absurd (congrArg Prod.fst hu) ho

theorem Sound.flush (h : Sound w) :
    ∃ v bs, w.flush = (.ok (), v) ∧ Extends w v .empty bs w.stagedChunk ∧ v.staged = .empty ∧
      Sound v := by
  have hfit := Nat.le_of_lt h.short
  obtain ⟨u, hu⟩ := flushChunk_ok h.sink h.codec hfit
  obtain ⟨bs, hext, -⟩ := extends_of_flushChunk hfit hu
  have hflushed := (h.sink.of_reaches hext.reaches).flush_ok
  have hflush : w.flush = (.ok (), { u with inner := (Sink.flush u.inner).2 }) := by
    rw [flush_eq, hu, andThen_ok, hflushed]
    rfl
  have hempty := staged_of_flush hflush
  have hall := hext.of_inner (.flush .refl) (contents_flush u.inner) u.compressions
  refine ⟨_, bs, hflush, hall, hempty, h.extend hall ?_⟩
  rw [hempty]
  exact u.chunkSize.pos

/-- A flush writes one chunk of what is staged, or nothing if nothing is. -/
theorem Sound.flush_staged (h : Sound w) :
    ∃ v, w.flush = (.ok (), v) ∧ v.staged = .empty ∧
      (w.staged.size = 0 → contents v.inner = contents w.inner ∧
        v.chunksWritten = w.chunksWritten) ∧
      (0 < w.staged.size → ∃ block, w.codec.Makes w.chunkSize.val block w.staged ∧
        contents v.inner = contents w.inner ++ Entry.written block ∧
        v.chunksWritten = w.chunksWritten + 1) := by
  obtain ⟨v, bs, hv, hext, hempty, -⟩ := h.flush
  have hmakes := hext.makes
  have hcontents := hext.contents_eq (.inl h.sink)
  refine ⟨v, hv, hempty, fun h0 => ?_, fun hpos => ?_⟩
  · rw [stagedChunk, if_pos h0] at hmakes
    cases hmakes
    exact ⟨hcontents.trans ByteArray.append_empty, hext.chunksWritten_eq⟩
  · rw [stagedChunk, if_neg (Nat.ne_of_gt hpos)] at hmakes
    cases hmakes with
    | @cons block _ _ _ hblock hnil =>
      cases hnil
      refine ⟨block, hblock, ?_, hext.chunksWritten_eq⟩
      rw [hcontents, Entry.writtenAll_cons]
      exact congrArg _ ByteArray.append_empty

theorem Sound.performAll (h : Sound w) (calls : List WriterCall) :
    ∃ v bs cs, w.performAll calls = (.ok (), v) ∧ Extends w v (WriterCall.bytes calls) bs cs ∧
      Sound v := by
  induction calls generalizing w with
  | nil => exact ⟨w, [], [], rfl, .refl w, h⟩
  | cons call calls ih =>
    cases call with
    | append data =>
      obtain ⟨u, bs, cs, hu, hext, -, hsound⟩ := h.append data
      obtain ⟨v, bs', cs', hv, hrest, hend⟩ := ih hsound
      refine ⟨v, bs ++ bs', cs ++ cs', ?_, hext.trans hrest, hend⟩
      rw [Writer.performAll, perform, hu, andThen_ok, hv]
    | flush =>
      obtain ⟨u, bs, hu, hext, -, hsound⟩ := h.flush
      obtain ⟨v, bs', cs', hv, hrest, hend⟩ := ih hsound
      have hall := hext.trans hrest
      rw [ByteArray.empty_append] at hall
      refine ⟨v, bs ++ bs', _, ?_, hall, hend⟩
      rw [Writer.performAll, perform, hu, andThen_ok, hv]

/-- The chunks that one append writes, and what it leaves staged, are the quotient and the rest. -/
theorem Extends.chunks_eq (h : Extends w v data bs cs) (h0 : w.staged = .empty)
    (hfull : ∀ c ∈ cs, c.size = w.chunkSize.val) (hshort : v.staged.size < w.chunkSize.val) :
    cs.length = data.size / w.chunkSize.val ∧ v.staged.size = data.size % w.chunkSize.val := by
  have hbytes := congrArg ByteArray.size h.bytes_eq
  rw [ByteArray.size_append, Bytes.size_concat hfull, h0, ByteArray.empty_append] at hbytes
  obtain ⟨hquotient, hrest⟩ : data.size / w.chunkSize.val = cs.length ∧
      data.size % w.chunkSize.val = v.staged.size := by
    rw [Nat.div_mod_unique w.chunkSize.pos, Nat.add_comm, Nat.mul_comm]
    exact ⟨hbytes, hshort⟩
  exact ⟨hquotient.symm, hrest.symm⟩

end Writer

/-- Appending is cut anywhere without a trace of the cut. Since the last flush, or the start, the
full chunks of what was appended were written, and what is left of it is staged for the next flush
to write. -/
theorem appends_fill_chunks {σ : Type} [LawfulSink σ] {sink : σ} {codec : Codec} {n : Nat}
    (hs : Sink.FaultFree sink) (hc : codec.FaultFree n) (hpos : 0 < n) (hmax : n ≤ maxChunkSize) :
    ∃ w, Writer.start sink n codec = (.ok w, w.inner) ∧
      ∀ earlier, ∃ u, w.performAll earlier = (.ok (), u) ∧ u.staged.size < n ∧
        (contents u.inner).size = (contents sink).size + u.position ∧
        (∀ a b, ∃ v x, u.append a = (.ok (), v) ∧ v.append b = (.ok (), x) ∧
          u.append (a ++ b) = (.ok (), x)) ∧
        ((earlier = [] ∨ ∃ calls, earlier = calls ++ [.flush]) → ∀ pieces,
          ∃ v blocks chunks, u.performAll (pieces.map .append) = (.ok (), v) ∧
            contents v.inner = contents u.inner ++ Entry.writtenAll blocks ∧
            v.chunksWritten = u.chunksWritten + blocks.length ∧
            List.Forall₂ (codec.Makes n) blocks chunks ∧
            Bytes.concat chunks ++ v.staged = Bytes.concat pieces ∧
            (∀ c ∈ chunks, c.size = n) ∧ chunks.length = (Bytes.concat pieces).size / n ∧
            v.staged.size = (Bytes.concat pieces).size % n ∧
            ∃ x, v.flush = (.ok (), x) ∧ x.staged = .empty ∧
              ((Bytes.concat pieces).size % n = 0 → contents x.inner = contents v.inner ∧
                x.chunksWritten = v.chunksWritten) ∧
              (0 < (Bytes.concat pieces).size % n → ∃ block, codec.Makes n block v.staged ∧
                contents x.inner = contents v.inner ++ Entry.written block ∧
                x.chunksWritten = v.chunksWritten + 1)) := by
  obtain ⟨w, hw, hfresh, hfree⟩ := Writer.start_ok hs hpos hmax hc.buffer_lt
  obtain rfl := hfresh.codec_eq
  obtain rfl := hfresh.chunkSize_eq
  have hsound : w.Sound := ⟨hfree, hc, by rw [hfresh.staged_eq]; exact hpos⟩
  refine ⟨w, hw, fun earlier => ?_⟩
  obtain ⟨u, bs, cs, hu, hext, hsoundu⟩ := hsound.performAll earlier
  have hcodec := hext.codec_eq
  have hsize := hext.chunkSize_eq
  refine ⟨u, hu, hsize ▸ hsoundu.short, ?_, fun a b => ?_, fun hflushed pieces => ?_⟩
  · rw [hext.contents_eq (.inl hfree), ByteArray.size_append, hfresh.contents_eq,
      ByteArray.size_append, hext.position_eq, hfresh.position_eq, Nat.add_assoc]
  · obtain ⟨v, -, -, hv, -, -, hsoundv⟩ := hsoundu.append a
    obtain ⟨x, -, -, hx, -⟩ := hsoundv.append b
    refine ⟨v, x, hv, hx, ?_⟩
    rw [Writer.append_append, hv, Writer.andThen_ok, hx]
  have hempty : u.staged = .empty := by
    rcases hflushed with rfl | ⟨calls, rfl⟩
    · cases hu
      exact hfresh.staged_eq
    · rw [Writer.performAll_append, Writer.andThen_eq_ok] at hu
      obtain ⟨t, -, hflush⟩ := hu
      rw [Writer.performAll_singleton] at hflush
      exact Writer.staged_of_flush hflush
  obtain ⟨v, bs', cs', hv, hextv, hfull, hsoundv⟩ := hsoundu.append (Bytes.concat pieces)
  have hshort := hsoundv.short
  rw [hextv.chunkSize_eq] at hshort
  obtain ⟨hchunks, hstaged⟩ := hextv.chunks_eq hempty hfull hshort
  have hflush := hsoundv.flush_staged
  have hmakes := hextv.makes
  rw [hcodec, hsize] at hmakes
  rw [hsize] at hfull hchunks hstaged
  rw [hextv.codec_eq, hextv.chunkSize_eq, hcodec, hsize, hstaged] at hflush
  refine ⟨v, bs', cs', ?_, hextv.contents_eq (.inl hsoundu.sink), hextv.chunksWritten_eq, hmakes,
    ?_, hfull, hchunks, hstaged, hflush⟩
  · rw [Writer.performAll_map_append, hv]
  · rw [hextv.bytes_eq, hempty, ByteArray.empty_append]

theorem appends_fill_chunks_in_memory :
    ∃ w u v x, Writer.start (MemorySink.new .none) 2 (.lz4 .checked) = (.ok w, w.inner) ∧
      w.performAll [.append ⟨#[104]⟩, .flush] = (.ok (), u) ∧
      u.performAll [.append ⟨#[105]⟩, .append .empty, .append ⟨#[33, 33]⟩] = (.ok (), v) ∧
      v.chunksWritten = u.chunksWritten + 1 ∧ v.staged.size = 1 ∧
      v.flush = (.ok (), x) ∧ x.chunksWritten = v.chunksWritten + 1 := by
  obtain ⟨w, hw, hruns⟩ := appends_fill_chunks (MemorySink.faultFree (s := .new .none) rfl)
    ((Lz4.lawful_lz4 .checked).faultFree (n := 2) (by decide)) (by decide) (by decide)
  obtain ⟨u, hu, -, -, -, hpieces⟩ := hruns [.append ⟨#[104]⟩, .flush]
  obtain ⟨v, blocks, chunks, hv, -, hcount, hmakes, -, -, hlength, hstaged, x, hx, -, -, hshort⟩ :=
    hpieces (.inr ⟨[.append ⟨#[104]⟩], rfl⟩) [⟨#[105]⟩, .empty, ⟨#[33, 33]⟩]
  obtain ⟨-, -, -, hcountx⟩ := hshort (by decide)
  refine ⟨w, u, v, x, hw, hu, hv, ?_, hstaged, hx, hcountx⟩
  rw [hcount, hmakes.length_eq, hlength]
  rfl

end TraceCapture
