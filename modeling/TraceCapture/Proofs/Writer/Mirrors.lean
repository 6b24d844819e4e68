import TraceCapture.Proofs.Stream.Memory
import TraceCapture.Proofs.Writer.File

set_option autoImplicit false

namespace TraceCapture.Writer

open LawfulSink

variable {σ τ : Type} [LawfulSink σ] [LawfulSink τ]

/-- The second writer is in the state of the first, over a sink without faults. -/
structure Mirrors (w : Writer σ) (v : Writer τ) : Prop where
  codec_eq : v.codec = w.codec
  chunkSize_eq : v.chunkSize = w.chunkSize
  staged_eq : v.staged = w.staged
  position_eq : v.position = w.position
  chunksWritten_eq : v.chunksWritten = w.chunksWritten
  compressions_eq : v.compressions = w.compressions
  contents_eq : contents v.inner = contents w.inner
  faultFree : Sink.FaultFree v.inner

/-- Every writer is mirrored by one over a sink in memory. -/
theorem exists_mirror (w : Writer σ) : ∃ v : Writer MemorySink, w.Mirrors v :=
  ⟨⟨⟨contents w.inner, 0, false, .none⟩, w.codec, w.chunkSize, w.staged, w.position,
      w.chunksWritten, w.compressions, w.log⟩,
    rfl, rfl, rfl, rfl, rfl, rfl, rfl, MemorySink.faultFree rfl⟩

theorem Mirrors.stage {w : Writer σ} {v : Writer τ} (h : Mirrors w v) (b : ByteArray) :
    Mirrors (w.stage b) (v.stage b) :=
  { h with staged_eq := congrArg (· ++ b) h.staged_eq }

theorem Mirrors.room_eq {w : Writer σ} {v : Writer τ} (h : Mirrors w v) : v.room = w.room := by
  rw [room, room, h.chunkSize_eq, h.staged_eq]

theorem Mirrors.flushChunk {w w' : Writer σ} {v : Writer τ} (h : Mirrors w v)
    (hok : w.flushChunk = (.ok (), w')) :
    ∃ v', v.flushChunk = (.ok (), v') ∧ Mirrors w' v' := by
  by_cases h0 : w.staged.size = 0
  · rw [flushChunk_of_empty h0] at hok
    cases hok
    exact ⟨v, flushChunk_of_empty (h.staged_eq ▸ h0), h⟩
  obtain ⟨block, inner, hblock, hlimit, hput, rfl⟩ := flushChunk_eq_ok hok h0
  have hput' := putEntry_ok h.faultFree block
  refine ⟨v.putBlock block (putEntry v.inner block).2, ?_, ?_⟩
  · refine flushChunk_of_put (h.staged_eq ▸ h0) ?_ hlimit hput'
    rwa [h.codec_eq, h.compressions_eq, h.staged_eq, h.chunkSize_eq]
  · exact {
      codec_eq := h.codec_eq
      chunkSize_eq := h.chunkSize_eq
      staged_eq := rfl
      position_eq := congrArg (· + lengthSize + block.size) h.position_eq
      chunksWritten_eq := congrArg (· + 1) h.chunksWritten_eq
      compressions_eq := congrArg (· + 1) h.compressions_eq
      contents_eq := by
        change contents (putEntry v.inner block).2 = contents inner
        rw [contents_putEntry hput, contents_putEntry hput', h.contents_eq]
      faultFree := h.faultFree.of_reaches (reaches_putEntry _ _) }

theorem Mirrors.appendFrom {w w' : Writer σ} {v : Writer τ} (h : Mirrors w v) (data : ByteArray)
    (i : Nat) (hok : w.appendFrom data i = (.ok (), w')) :
    ∃ v', v.appendFrom data i = (.ok (), v') ∧ Mirrors w' v' := by
  fun_induction Writer.appendFrom w data i generalizing v with
  | case1 w i hi =>
    cases hok
    exact ⟨v, appendFrom_end hi, h⟩
  | case2 w i hi j more hfull next =>
    rename_i hflush ih
    have hmore := h.stage (data.extract i j)
    obtain ⟨u, hu, hnext⟩ := hmore.flushChunk hflush
    obtain ⟨v', hv', hend⟩ := ih hnext hok
    refine ⟨v', ?_, hend⟩
    have hfull' : v.chunkSize.val ≤ (v.stage (data.extract i j)).staged.size := by
      rw [hmore.staged_eq, h.chunkSize_eq]
      exact hfull
    rw [appendFrom_eq, if_neg hi, h.room_eq]
    refine (if_pos hfull').trans ?_
    change andThen (v.stage (data.extract i j)).flushChunk _ = _
    rw [hu, andThen_ok]
    exact hv'
  | case3 w i hi j more =>
    rename_i hfull hflush
    exact absurd hok (hflush w')
  | case4 w i hi j more =>
    rename_i hfull ih
    have hmore := h.stage (data.extract i j)
    obtain ⟨v', hv', hend⟩ := ih hmore hok
    refine ⟨v', ?_, hend⟩
    have hfull' : ¬ v.chunkSize.val ≤ (v.stage (data.extract i j)).staged.size := by
      rw [hmore.staged_eq, h.chunkSize_eq]
      exact hfull
    rw [appendFrom_eq, if_neg hi, h.room_eq]
    exact (if_neg hfull').trans hv'

theorem Mirrors.flush {w w' : Writer σ} {v : Writer τ} (h : Mirrors w v)
    (hok : w.flush = (.ok (), w')) : ∃ v', v.flush = (.ok (), v') ∧ Mirrors w' v' := by
  rw [flush_eq, andThen_eq_ok] at hok
  obtain ⟨u, hu, hflush⟩ := hok
  obtain ⟨x, hx, hm⟩ := h.flushChunk hu
  have hf := hm.faultFree
  refine ⟨{ x with inner := (Sink.flush x.inner).2 }, ?_, ?_⟩
  · rw [flush_eq, hx, andThen_ok, hf.flush_ok]
    rfl
  · cases (Prod.ext_iff.mp hflush).2
    exact { hm with
      contents_eq := by rw [contents_flush, contents_flush, hm.contents_eq]
      faultFree := hf.of_reaches (.flush .refl) }

theorem Mirrors.perform {w w' : Writer σ} {v : Writer τ} (h : Mirrors w v) {call : WriterCall}
    (hok : w.perform call = (.ok (), w')) :
    ∃ v', v.perform call = (.ok (), v') ∧ Mirrors w' v' := by
  cases call with
  | append data => exact h.appendFrom data 0 hok
  | flush => exact h.flush hok

theorem Mirrors.performAll {w w' : Writer σ} {v : Writer τ} (h : Mirrors w v)
    {calls : List WriterCall} (hok : w.performAll calls = (.ok (), w')) :
    ∃ v', v.performAll calls = (.ok (), v') ∧ Mirrors w' v' := by
  induction calls generalizing w v with
  | nil =>
    cases hok
    exact ⟨v, rfl, h⟩
  | cons call calls ih =>
    obtain ⟨u, hu, hrest⟩ := andThen_eq_ok.mp hok
    obtain ⟨x, hx, hm⟩ := h.perform hu
    obtain ⟨v', hv', hend⟩ := ih hm hrest
    exact ⟨v', andThen_eq_ok.mpr ⟨x, hx, hv'⟩, hend⟩

end TraceCapture.Writer
