import TraceCapture.Proofs.Writer.Append

set_option autoImplicit false

namespace TraceCapture.Writer

variable {σ : Type}

theorem stage_fits {w : Writer σ} {piece : ByteArray} (h : w.staged.size ≤ w.chunkSize.val)
    (hroom : piece.size ≤ w.room) : (w.stage piece).staged.size ≤ w.chunkSize.val := by
  rw [size_stage]
  unfold room at hroom
  omega

variable [Sink σ]

/-- Steps from one writer to another that stage these bytes, piece by piece into the room that is
left. -/
inductive Steps : Writer σ → ByteArray → Writer σ → Prop where
  | refl (w : Writer σ) : Steps w .empty w
  | stage {w w' : Writer σ} {rest : ByteArray} (piece : ByteArray) (hroom : piece.size ≤ w.room)
      (tail : Steps (w.stage piece) rest w') : Steps w (piece ++ rest) w'
  | flushChunk {w v w' : Writer σ} {data : ByteArray} (h : w.flushChunk = (.ok (), v))
      (tail : Steps v data w') : Steps w data w'
  | flushSink {w w' : Writer σ} {inner : σ} {data : ByteArray}
      (h : Sink.flush w.inner = (.ok (), inner)) (tail : Steps { w with inner } data w') :
      Steps w data w'

variable {w v w' : Writer σ} {a b data : ByteArray} {i : Nat}

theorem Steps.trans (h : Steps w a v) (h' : Steps v b w') : Steps w (a ++ b) w' := by
  induction h with
  | refl => rwa [ByteArray.empty_append]
  | stage piece hroom _ ih =>
    rw [ByteArray.append_assoc]
    exact .stage piece hroom (ih h')
  | flushChunk h _ ih => exact .flushChunk h (ih h')
  | flushSink h _ ih => exact .flushSink h (ih h')

theorem Steps.of_appendFrom (h : w.appendFrom data i = (.ok (), w')) :
    Steps w (data.extract i data.size) w' := by
  have hpiece : ∀ (w : Writer σ) i,
      (data.extract i (i + min (data.size - i) w.room)).size ≤ w.room := by
    intro w i
    rw [ByteArray.size_extract]
    omega
  fun_induction Writer.appendFrom w data i with
  | case1 w i hi =>
    cases h
    rw [ByteArray.extract_eq_empty_iff.mpr (by omega)]
    exact .refl _
  | case2 w i hi j more hfull next hflush ih =>
    rw [ByteArray.extract_eq_extract_append_extract j (by omega) (by omega)]
    exact .stage _ (hpiece w i) (.flushChunk hflush (ih h))
  | case3 w i hi j more hfull hflush => exact absurd h (hflush w')
  | case4 w i hi j more hfull ih =>
    rw [ByteArray.extract_eq_extract_append_extract j (by omega) (by omega)]
    exact .stage _ (hpiece w i) (ih h)

theorem Steps.of_flush (h : w.flush = (.ok (), w')) : Steps w .empty w' := by
  rw [flush_eq, andThen_eq_ok] at h
  obtain ⟨v, hv, hsink⟩ := h
  refine .flushChunk hv ?_
  cases hflush : Sink.flush v.inner with
  | mk o inner =>
    rw [hflush] at hsink
    cases o <;> cases hsink
    exact .flushSink hflush (.refl _)

theorem Steps.of_perform {call : WriterCall} (h : w.perform call = (.ok (), w')) :
    Steps w (WriterCall.bytes [call]) w' := by
  cases call with
  | append data =>
    have hsteps := of_appendFrom h
    rw [ByteArray.extract_zero_size] at hsteps
    rwa [WriterCall.bytes, WriterCall.bytes, ByteArray.append_empty]
  | flush => exact of_flush h

theorem Steps.of_performAll {calls : List WriterCall} (h : w.performAll calls = (.ok (), w')) :
    Steps w (WriterCall.bytes calls) w' := by
  induction calls generalizing w with
  | nil =>
    cases h
    exact .refl _
  | cons call calls ih =>
    rw [performAll, andThen_eq_ok] at h
    obtain ⟨v, hv, hrest⟩ := h
    rw [← List.singleton_append, WriterCall.bytes_append]
    exact (of_perform hv).trans (ih hrest)

end TraceCapture.Writer
