import TraceCapture.Proofs.Block.Lz4.Lawful
import TraceCapture.Proofs.Capture.Flushes
import TraceCapture.Proofs.Writer.Mirrors

set_option autoImplicit false

namespace TraceCapture

def CaptureHistory.EndsWith (h : CaptureHistory) (last : CaptureCall) : Prop :=
  ∃ before, h.calls = before ++ [last] ∧ ∀ call ∈ before, call.closes = false

def ProducerPhase.Closes (h : CaptureHistory) : ProducerPhase → Prop
  | requestStop quiet | join quiet => h.EndsWith (if quiet then .drop else .finish)
  | returned reply => ∀ stats, reply = .ok (some stats) → h.EndsWith .finish
  | _ => True

def WriterThread.Counted {σ : Type} (t : WriterThread σ) : Prop :=
  match t.phase with
  | .close chunks => t.writer.staged = .empty ∧ chunks = t.writer.chunksWritten
  | .ended r => ∀ stats, r = .ok stats → stats = ⟨t.bytes, t.writer.chunksWritten⟩
  | _ => True

namespace Capture

variable {σ : Type} {c : Capture σ} {h : CaptureHistory}

theorem closes_producerMove {c' : Capture σ} {queued : ByteArray} (hc : c.producer.Closes h)
    (hm : ProducerMoves c.session c.producer c' queued) :
    c'.producer.Closes { h with queued := h.queued ++ queued } := by
  obtain ⟨s, phase⟩ := c
  dsimp only at hm hc
  cases hm with
  | done | served | fault => exact nofun
  | requestStop | wait | rest => exact hc
  | join _ hreply =>
    intro stats hs
    have hquiet := (hreply stats hs).1
    subst hquiet
    exact hc
  | _ => trivial

theorem closes_start (hopen : h.Open) (s : CaptureSession σ) (call : CaptureCall) :
    (start s call).producer.Closes { h with calls := h.calls ++ [call] } := by
  cases call with
  | write | flush => trivial
  | finish => exact ⟨h.calls, rfl, hopen⟩
  | drop =>
    change ProducerPhase.Closes _ (if s.joined then _ else _ : Capture σ).producer
    split
    · exact nofun
    · exact ⟨h.calls, rfl, hopen⟩

theorem counted_writerMove [Sink σ] {sh sh' : CaptureShared} {t t' : WriterThread σ}
    {written : List WriterCall} (hc : t.Counted)
    (hm : WriterMoves sh t.writer t.bytes t.phase sh' t' written) (hok : ¬ t'.Failed) :
    t'.Counted := by
  obtain ⟨phase, writer, bytes⟩ := t
  dsimp only at hm
  cases hm with
  | flushLast hcall => exact ⟨Writer.staged_of_flush hcall, rfl⟩
  | close hcall =>
    rename_i chunks v
    have hchunks : chunks = writer.chunksWritten := hc.2
    rintro stats ⟨⟩
    rw [Writer.flush_of_staged_eq_empty hc.1 hcall, hchunks]
  | fail _ hfailed => exact absurd hfailed hok
  | rest => exact hc
  | _ => trivial

theorem invariant_finished [Sink σ] {w : Writer σ} {capacity : Nat} {s : CaptureSession σ}
    {sink : σ} (hstart : CaptureSession.start w capacity = (.ok s, sink)) :
    Invariant capacity s fun c h => c.producer.Closes h ∧ c.session.thread.Counted where
  idle := by
    obtain ⟨-, ring, -, rfl⟩ := CaptureSession.start_eq_ok hstart
    exact ⟨nofun, trivial⟩
  call _ hc _ hopen call := by
    refine ⟨closes_start hopen _ call, ?_⟩
    rw [session_start]
    exact hc.2
  producer _ hc hm := by
    refine ⟨closes_producerMove hc.1 hm, ?_⟩
    rw [thread_of_moves hm]
    exact hc.2
  writer _ hc hm hok := ⟨hc.1, counted_writerMove hc.2 hm hok⟩

theorem phase_of_reply {stats : CaptureStats} (hreply : c.reply? = some (.ok (some stats))) :
    c.producer = .returned (.ok (some stats)) := by
  obtain ⟨session, phase⟩ := c
  cases phase with
  | returned reply => exact congrArg _ (Option.some.inj hreply)
  | _ => cases hreply

/-- A thread that has ended has made the calls of the program and two flushes of its own. -/
theorem performAll_of_ended [Sink σ] {w : Writer σ} {stats : CaptureStats} (hc : Coordinated c h)
    (ha : Accounted w c h) (ho : Ordered c h)
    (hended : c.session.thread.phase = .ended (.ok stats)) :
    w.performAll (h.plain ++ [.flush, .flush]) = (.ok (), c.session.thread.writer) := by
  have hdrained := hc.thread
  rw [hended] at hdrained
  obtain ⟨hrest, hopen⟩ := hc.producer.of_stop hdrained.1
  have hpending : c.pending = [.append .empty] := by
    simp [pending, unwritten, hended, WriterPhase.inHand, hdrained.2, hrest, hopen]
  unfold Ordered at ho
  rw [hpending, hended] at ho
  refine (ho σ w).symm.trans ?_
  rw [Writer.performAll_append, ha.replay]
  exact WriterCall.equivalent_append_empty σ _

theorem bytes_of_ended [Sink σ] {w : Writer σ} {stats : CaptureStats} (hc : Coordinated c h)
    (ha : Accounted w c h) (hended : c.session.thread.phase = .ended (.ok stats)) :
    c.session.thread.bytes = c.session.queued := by
  have hdrained := hc.thread
  have hbytes := ha.bytes
  rw [hended] at hdrained hbytes
  rw [hdrained.2] at hbytes
  change h.appended ++ .empty ++ .empty = h.queued at hbytes
  rw [ByteArray.append_empty, ByteArray.append_empty] at hbytes
  rw [ha.taken, ha.queued, hbytes]

/-- Whatever calls are made, however the steps of the two threads are interleaved and whatever the
sink does: a capture that answers its statistics has left in its sink what the same calls leave when
they are made on a trace writer of their own, over a sink without faults. -/
theorem finished_trace_is_plain_trace {τ : Type} [LawfulSink σ] [LawfulSink τ] {p : Profile}
    {w : Writer σ} {capacity : Nat} {s : CaptureSession σ} {sink : σ} {stats : CaptureStats}
    (hstart : CaptureSession.start w capacity = (.ok s, sink)) (hreach : Reaches p s c h)
    (hreply : c.reply? = some (.ok (some stats))) {v : Writer τ} (hv : w.Mirrors v) :
    h.EndsWith .finish ∧ ∃ v₁ v₂, v.performAll h.plain = (.ok (), v₁) ∧
      v₁.finish = (.ok (), v₂) ∧
      LawfulSink.contents c.session.thread.writer.inner = LawfulSink.contents v₂.inner ∧
      stats.bytes = c.session.queued ∧ stats.chunks = v₂.chunksWritten := by
  have hproducer := phase_of_reply hreply
  have hended := (hreach.safe hstart).finished_ended stats hproducer
  have hok : ¬ c.Failed := by
    rintro ⟨r, hr, hbad⟩
    rw [hended] at hr
    exact hbad stats (WriterPhase.ended.inj hr).symm
  obtain ⟨hc, ha⟩ := hreach.invariant (invariant_accounted hstart) hstart hok
  obtain ⟨-, ho⟩ := hreach.invariant (invariant_ordered hstart) hstart hok
  obtain ⟨hcloses, hcounted⟩ := hreach.invariant (invariant_finished hstart) hstart hok
  rw [hproducer] at hcloses
  unfold WriterThread.Counted at hcounted
  rw [hended] at hcounted
  obtain rfl := hcounted stats rfl
  -- the thread flushes twice before it ends, which leaves the same as once
  have hrun := performAll_of_ended hc ha ho hended
  rw [Writer.performAll_append, Writer.andThen_eq_ok] at hrun
  obtain ⟨u, hplain, hflushes⟩ := hrun
  obtain ⟨u₁, hfirst, hrest⟩ := Writer.andThen_eq_ok.mp hflushes
  rw [Writer.performAll_singleton] at hrest
  have hsecond := Writer.flush_of_staged_eq_empty (Writer.staged_of_flush hfirst) hrest
  obtain ⟨v₁, hv₁, hmirror⟩ := hv.performAll hplain
  obtain ⟨v₂, hv₂, hmirror₂⟩ := hmirror.flush hfirst
  refine ⟨hcloses _ rfl, v₁, v₂, hv₁, Writer.finish_eq_ok.mpr hv₂, ?_, ?_, ?_⟩
  · rw [hsecond, LawfulSink.contents_flush, hmirror₂.contents_eq]
  · exact bytes_of_ended hc ha hended
  · rw [hmirror₂.chunksWritten_eq, hsecond]

theorem writerStep_eq [Sink σ] {sh sh' : CaptureShared} {t t' : WriterThread σ} {joined : Bool}
    {queued : Nat} {log : Array CaptureEvent} {phase : ProducerPhase}
    (h : t.step sh = (sh', t')) :
    writerStep ⟨⟨sh, t, joined, queued, log⟩, phase⟩ =
      ⟨⟨sh', t', joined, queued, log⟩, phase⟩ := by
  unfold writerStep
  dsimp only
  rw [h]

theorem reaches_two_bytes [Sink σ] {w : Writer σ} {s : CaptureSession σ}
    (hs : s = ⟨⟨⟨⟨#[0, 0, 0]⟩, 0, 0⟩, false, 0, 0⟩, .start w, false, 0, #[]⟩) :
    ∃ h, Reaches .checked s ⟨⟨⟨⟨⟨#[1, 2, 0]⟩, 2, 0⟩, false, 0, 0⟩, .start w, false, 2, #[]⟩,
      .returned (.ok none)⟩ h ∧ h.calls = [.write ⟨#[1, 2]⟩] := by
  let idle (ring : Ring) (queued : Nat) : CaptureSession σ :=
    ⟨⟨ring, false, 0, 0⟩, .start w, false, queued, #[]⟩
  let empty : Ring := ⟨⟨#[0, 0, 0]⟩, 0, 0⟩
  let filled : Ring := ⟨⟨#[1, 2, 0]⟩, 2, 0⟩
  have hqueue : producerStep .checked ⟨idle empty 0, .queue ⟨#[1, 2]⟩ 0⟩ =
      ⟨idle filled 2, .findRoom ⟨#[1, 2]⟩ 2⟩ := by
    have hend : pieceEnd (idle empty 0) ⟨#[1, 2]⟩ 0 = 2 := rfl
    have hpush : empty.push .checked (ByteArray.extract ⟨#[1, 2]⟩ 0 2) = (.ok (), filled) := by rfl
    unfold producerStep
    dsimp only
    rw [hend, hpush]
  have hwrite : Reaches .checked s ⟨idle empty 0, .findRoom ⟨#[1, 2]⟩ 0⟩
      ⟨[.write ⟨#[1, 2]⟩], .empty, []⟩ := hs ▸ .call .idle rfl nofun (.write ⟨#[1, 2]⟩)
  obtain ⟨h₁, hroom, hcalls₁⟩ : ∃ h, Reaches .checked s ⟨idle empty 0, .queue ⟨#[1, 2]⟩ 0⟩ h ∧
      h.calls = [.write ⟨#[1, 2]⟩] := hwrite.run [.producer]
  have hqueued := hqueue ▸ hroom.producer
  obtain ⟨h₂, hwritten, hcalls₂⟩ : ∃ h, Reaches .checked s ⟨idle filled 2, .returned (.ok none)⟩ h ∧
      h.calls = h₁.calls := hqueued.run [.producer]
  exact ⟨h₂, hwritten, hcalls₂.trans hcalls₁⟩

/-- Two bytes are queued and the capture is finished while they are still in the ring. -/
theorem reaches_finish_of_two_bytes [Sink σ] {w w₁ w₂ w₃ : Writer σ} {s : CaptureSession σ}
    (hs : s = ⟨⟨⟨⟨#[0, 0, 0]⟩, 0, 0⟩, false, 0, 0⟩, .start w, false, 0, #[]⟩)
    (happend : w.append ⟨#[1, 2]⟩ = (.ok (), w₁)) (hflush : w₁.flush = (.ok (), w₂))
    (hfinish : w₂.finish = (.ok (), w₃)) :
    ∃ c h, Reaches .checked s c h ∧ h.calls = [.write ⟨#[1, 2]⟩, .finish] ∧
      c.reply? = some (.ok (some ⟨2, w₂.chunksWritten⟩)) := by
  let stopped (ring : Ring) (phase : WriterPhase) (w : Writer σ) (n : Nat) : Capture σ :=
    ⟨⟨⟨ring, true, 0, 0⟩, ⟨phase, w, n⟩, false, 2, #[]⟩, .join false⟩
  let filled : Ring := ⟨⟨#[1, 2, 0]⟩, 2, 0⟩
  let drained : Ring := ⟨⟨#[1, 2, 0]⟩, 2, 2⟩
  obtain ⟨h₂, hwritten, hcalls₂⟩ := reaches_two_bytes hs
  -- the call to finish, and what the thread takes out of the ring
  have hopen : h₂.Open := by simp [CaptureHistory.Open, hcalls₂, CaptureCall.closes]
  obtain ⟨h₃, hseen, hcalls₃⟩ : ∃ h, Reaches .checked s (stopped filled (.copyOut 2) w 0) h ∧
      h.calls = h₂.calls ++ [CaptureCall.finish] :=
    (hwritten.call rfl hopen .finish).run [.producer, .writer, .writer, .writer]
  obtain ⟨h₄, hcopied, hcalls₄⟩ : ∃ h, Reaches .checked s
      (stopped filled (.advance ⟨#[1, 2]⟩) w 0) h ∧ h.calls = h₃.calls := hseen.run [.writer]
  obtain ⟨h₅, htaken, hcalls₅⟩ : ∃ h, Reaches .checked s
      (stopped drained (.append ⟨#[1, 2]⟩) w 0) h ∧ h.calls = h₄.calls := hcopied.run [.writer]
  have happended := writerStep_eq (WriterThread.step_append happend) ▸ htaken.writer
  -- the last round of the thread, over an empty ring
  obtain ⟨h₆, hlast, hcalls₆⟩ : ∃ h, Reaches .checked s (stopped drained .flushLast w₁ 2) h ∧
      h.calls = h₅.calls := happended.run (List.replicate 5 .writer)
  have hflushed := writerStep_eq (WriterThread.step_flushLast hflush) ▸ hlast.writer
  have hclosed := writerStep_eq (WriterThread.step_close hfinish) ▸ hflushed.writer
  obtain ⟨h₇, hjoined, hcalls₇⟩ := hclosed.run [.producer]
  refine ⟨_, h₇, hjoined, ?_, rfl⟩
  rw [hcalls₇]
  exact hcalls₆.trans (by rw [hcalls₅, hcalls₄, hcalls₃, hcalls₂]; rfl)

theorem finished_trace_of_two_bytes :
    ∃ (w : Writer MemorySink) (v : Writer MemorySink) (s : CaptureSession MemorySink)
      (c : Capture MemorySink) (h : CaptureHistory) (v₁ v₂ : Writer MemorySink),
      Writer.start (MemorySink.new .none) 4 (.lz4 .checked) = (.ok w, w.inner) ∧
      CaptureSession.start w 3 = (.ok s, w.inner) ∧ Reaches .checked s c h ∧
      h.calls = [.write ⟨#[1, 2]⟩, .finish] ∧ w.Mirrors v ∧
      v.performAll [.append ⟨#[1, 2]⟩] = (.ok (), v₁) ∧ v₁.finish = (.ok (), v₂) ∧
      c.reply? = some (.ok (some ⟨2, v₂.chunksWritten⟩)) ∧
      c.session.thread.writer.inner.data = v₂.inner.data := by
  have hsink : Sink.FaultFree (MemorySink.new .none) := MemorySink.faultFree rfl
  obtain ⟨w, hw, -, -, -, hwrote⟩ :=
    Writer.wrote_start hsink (Lz4.lawful_lz4 .checked) (show 0 < 4 by decide) (by decide)
  obtain ⟨w₁, _, _, happend, -, hwrote₁, -⟩ := hwrote.appendFrom ⟨#[1, 2]⟩ 0
  obtain ⟨w₂, _, hflush, -, -, hwrote₂⟩ := hwrote₁.flush
  obtain ⟨w₃, -, hfinish, -⟩ := hwrote₂.flush
  obtain ⟨s, hs⟩ : ∃ s : CaptureSession MemorySink,
      s = ⟨⟨⟨⟨#[0, 0, 0]⟩, 0, 0⟩, false, 0, 0⟩, .start w, false, 0, #[]⟩ := ⟨_, rfl⟩
  have hstart : CaptureSession.start w 3 = (.ok s, w.inner) :=
    hs ▸ CaptureSession.start_eq w (by decide) (by decide)
  obtain ⟨c, h, hreach, hcalls, hreply⟩ :=
    reaches_finish_of_two_bytes hs happend hflush (Writer.finish_eq_ok.mpr hfinish)
  obtain ⟨v, hv⟩ := w.exists_mirror
  obtain ⟨-, v₁, v₂, hplain, hend, hcontents, -, hchunks⟩ :=
    finished_trace_is_plain_trace hstart hreach hreply hv
  have hplain' : h.plain = [.append ⟨#[1, 2]⟩] := by
    rw [CaptureHistory.plain, hcalls]
    rfl
  rw [hplain'] at hplain
  have hchunks' : w₂.chunksWritten = v₂.chunksWritten := hchunks
  rw [hchunks'] at hreply
  exact ⟨w, v, s, c, h, v₁, v₂, hw, hstart, hreach, hcalls, hv, hplain, hend, hreply, hcontents⟩

end Capture

end TraceCapture
