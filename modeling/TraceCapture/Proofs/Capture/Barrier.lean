import TraceCapture.Proofs.Capture.FinishedTrace
import TraceCapture.Proofs.RoundTrip
import TraceCapture.Proofs.Writer.Failures

set_option autoImplicit false

/-!
# A flush is a barrier

When a flush returns, the trace file is whole and holds all that was queued ahead of it. The thread
acknowledges a flush only after it has seen the ring empty, and from then on it idles until the next
call, so nothing that the sink does can make it fail in between.
-/

namespace TraceCapture

structure CaptureShared.Quiet (sh : CaptureShared) : Prop where
  stop_eq : sh.stop = false
  served : sh.flushRequested ≤ sh.flushed
  unread : sh.ring.sizeToRead = 0

def WriterPhase.Idle (sh : CaptureShared) : WriterPhase → Prop
  | loadStop => True
  | loadRequest stop | pause stop => stop = false
  | lookAtRing stop requested | serveFlush stop requested =>
      stop = false ∧ requested ≤ sh.flushed
  | _ => False

def WriterPhase.Knows (requests : Nat) : WriterPhase → Prop
  | lookAtRing _ requested | serveFlush _ requested | acknowledge _ requested =>
      requested ≤ requests
  | _ => True

theorem WriterPhase.Knows.mono {m n : Nat} {phase : WriterPhase} (h : phase.Knows m)
    (hle : m ≤ n) : phase.Knows n := by
  cases phase with
  | lookAtRing | serveFlush | acknowledge => exact Nat.le_trans h hle
  | _ => trivial

theorem WriterThread.Failed.knows {σ : Type} {t : WriterThread σ} (h : t.Failed) (n : Nat) :
    t.phase.Knows n := by
  obtain ⟨r, hr, -⟩ := h
  rw [hr]
  trivial

def ProducerPhase.Flushes (flushed : Nat) (settled : Prop) : ProducerPhase → Prop
  | requestFlush => True
  | awaitFlush ticket | waiting ticket => ticket ≤ flushed → settled
  | returned reply => ∀ answer, reply = .ok answer → settled
  | _ => False

theorem WriterPhase.Idle.step {σ : Type} [Sink σ] {sh : CaptureShared} (hsh : sh.Quiet)
    {phase : WriterPhase} (h : phase.Idle sh) (w : Writer σ) (n : Nat) :
    ∃ phase', WriterThread.step sh ⟨phase, w, n⟩ = (sh, ⟨phase', w, n⟩) ∧ phase'.Idle sh := by
  cases phase with
  | loadStop => exact ⟨_, rfl, hsh.stop_eq⟩
  | loadRequest => exact ⟨_, rfl, h, hsh.served⟩
  | lookAtRing stop requested =>
    refine ⟨.serveFlush stop requested, ?_, h⟩
    unfold WriterThread.step WriterThread.goto
    dsimp only
    rw [hsh.unread, if_neg (Nat.lt_irrefl 0)]
  | serveFlush stop requested => exact ⟨_, if_neg (Nat.not_lt_of_le h.2), h.1⟩
  | pause stop =>
    cases h
    exact ⟨_, rfl, trivial⟩
  | _ => exact h.elim

namespace Capture

variable {σ : Type} {c : Capture σ} {h : CaptureHistory}

structure Settled (c : Capture σ) (h : CaptureHistory) : Prop where
  quiet : c.session.shared.Quiet
  idle : c.session.thread.phase.Idle c.session.shared
  flushed_last : ∃ calls, h.written = calls ++ [.flush]

theorem Settled.not_failed (hs : Settled c h) : ¬ c.Failed := by
  rintro ⟨r, hr, -⟩
  have hidle := hs.idle
  rw [hr] at hidle
  exact hidle

theorem Settled.writerStep [Sink σ] (hs : Settled c h) :
    Settled c.writerStep { h with written := h.written ++ c.writtenNext } := by
  obtain ⟨⟨shared, ⟨phase, writer, bytes⟩, joined, queued, log⟩, producer⟩ := c
  obtain ⟨hquiet, hidle, hlast⟩ := hs
  dsimp only at hquiet hidle
  obtain ⟨phase', hstep, hidle'⟩ := hidle.step hquiet writer bytes
  have hnone : nextCall? ⟨⟨shared, ⟨phase, writer, bytes⟩, joined, queued, log⟩, producer⟩ =
      none := by
    cases phase with
    | serveFlush stop requested => exact if_neg (Nat.not_lt_of_le hidle.2)
    | append | flushLast | close => exact hidle.elim
    | _ => rfl
  have hwritten : writtenNext ⟨⟨shared, ⟨phase, writer, bytes⟩, joined, queued, log⟩, producer⟩ =
      [] := by
    unfold writtenNext
    rw [hnone]
  rw [hwritten, List.append_nil, writerStep_eq hstep]
  exact ⟨hquiet, hidle', hlast⟩

/-- Requests are numbered without gaps, so none is served or known that was not made. -/
def Numbered (c : Capture σ) : Prop :=
  c.session.shared.flushed ≤ c.session.shared.flushRequested ∧
    c.session.thread.phase.Knows c.session.shared.flushRequested

theorem Numbered.producerMove {c' : Capture σ} {queued : ByteArray} (hn : Numbered c)
    (hm : ProducerMoves c.session c.producer c' queued) : Numbered c' := by
  obtain ⟨s, phase⟩ := c
  obtain ⟨hle, hknows⟩ := hn
  dsimp only at hm hle hknows
  cases hm with
  | requestFlush => exact ⟨Nat.le_succ_of_le hle, hknows.mono (Nat.le_succ _)⟩
  | _ => exact ⟨hle, hknows⟩

theorem Numbered.writerMove [Sink σ] {sh : CaptureShared} {t : WriterThread σ}
    {written : List WriterCall} (hn : Numbered c)
    (hm : WriterMoves c.session.shared c.session.thread.writer c.session.thread.bytes
      c.session.thread.phase sh t written) :
    Numbered ⟨{ c.session with shared := sh, thread := t }, c.producer⟩ := by
  obtain ⟨⟨shared, ⟨phase, writer, bytes⟩, joined, queued, log⟩, producer⟩ := c
  obtain ⟨hle, hknows⟩ := hn
  dsimp only at hm hle hknows
  cases hm with
  | loadRequest => exact ⟨hle, Nat.le_refl _⟩
  | nothingSeen | flush => exact ⟨hle, hknows⟩
  | acknowledge => exact ⟨hknows, trivial⟩
  | fail _ hfailed => exact ⟨hle, hfailed.knows _⟩
  | _ => exact ⟨hle, trivial⟩

/-- Where the thread acknowledges a flush, it has seen the ring empty and then flushed. -/
def Emptied (c : Capture σ) (h : CaptureHistory) : Prop :=
  ∀ stop requested, c.session.thread.phase = .acknowledge stop requested →
    c.session.shared.ring.contents = .empty ∧ ∃ calls, h.written = calls ++ [.flush]

theorem Emptied.producerMove {c' : Capture σ} {queued : ByteArray} (he : Emptied c h)
    (hc : Coordinated c h) (hm : ProducerMoves c.session c.producer c' queued) :
    Emptied c' { h with queued := h.queued ++ queued } := by
  obtain ⟨s, phase⟩ := c
  obtain ⟨hp, ht⟩ := hc
  dsimp only at hm hp ht
  cases hm with
  | queue =>
    -- nothing is queued while a flush is open
    intro stop requested hphase
    dsimp only at hphase
    rw [hphase] at ht
    obtain ⟨-, hserved⟩ := hp
    obtain ⟨-, heq, hlt⟩ := ht
    omega
  | _ => exact he

theorem flushes_producerMove {c' : Capture σ} {queued : ByteArray} (hn : Numbered c)
    (hf : c.producer.Flushes c.session.shared.flushed (Settled c h))
    (hm : ProducerMoves c.session c.producer c' queued) :
    c'.producer.Flushes c'.session.shared.flushed
      (Settled c' { h with queued := h.queued ++ queued }) := by
  obtain ⟨s, phase⟩ := c
  have hle := hn.1
  dsimp only at hm hf hle
  have hkeep : ∀ phase', Settled ⟨s, phase⟩ h →
      Settled ⟨s, phase'⟩ { h with queued := h.queued ++ .empty } :=
    fun _ hs => ⟨hs.quiet, hs.idle, hs.flushed_last⟩
  cases hm with
  | requestFlush =>
    intro hserved
    dsimp only at hserved
    omega
  | unserved | retryFlush => exact fun hserved => hkeep _ (hf hserved)
  | served hserved => exact fun _ _ => hkeep _ (hf hserved)
  | fault => exact nofun
  | rest => exact fun answer hanswer => hkeep _ (hf answer hanswer)
  | _ => exact hf.elim

variable [Sink σ] {p : Profile} {w : Writer σ} {capacity : Nat} {s : CaptureSession σ} {sink : σ}

theorem Reaches.numbered (hstart : CaptureSession.start w capacity = (.ok s, sink))
    (hreach : Reaches p s c h) : Numbered c := by
  induction hreach with
  | idle =>
    obtain ⟨-, ring, -, rfl⟩ := CaptureSession.start_eq_ok hstart
    exact ⟨Nat.le_refl _, trivial⟩
  | call hc hret hopen call ih =>
    unfold Numbered
    rwa [session_start]
  | producer hc ih => exact ih.producerMove ((hc.safe hstart).producerMoves p)
  | writer hc ih => exact ih.writerMove (hc.safe hstart).writerMoves

theorem Emptied.writerMove {sh : CaptureShared} {t : WriterThread σ} {written : List WriterCall}
    (hc : Coordinated c h)
    (hm : WriterMoves c.session.shared c.session.thread.writer c.session.thread.bytes
      c.session.thread.phase sh t written) :
    Emptied ⟨{ c.session with shared := sh, thread := t }, c.producer⟩
      { h with written := h.written ++ written } := by
  obtain ⟨⟨shared, ⟨phase, writer, bytes⟩, joined, queued, log⟩, producer⟩ := c
  have ht : phase.Agrees shared := hc.thread
  dsimp only at hm
  intro stop requested hphase
  dsimp only at hphase ⊢
  cases hm with
  | flush hlt => exact ⟨ht.2.2 hlt, h.written, rfl⟩
  | fail _ hfailed =>
    obtain ⟨r, hr, -⟩ := hfailed
    rw [hphase] at hr
    cases hr
  | _ => cases hphase

theorem invariant_emptied (hstart : CaptureSession.start w capacity = (.ok s, sink)) :
    Invariant capacity s fun c h => Coordinated c h ∧ Emptied c h where
  idle := by
    refine ⟨(invariant_coordinated hstart).idle, ?_⟩
    obtain ⟨-, ring, -, rfl⟩ := CaptureSession.start_eq_ok hstart
    exact nofun
  call _ hc hret hopen call := by
    refine ⟨hc.1.call hret hopen call, ?_⟩
    unfold Emptied
    rw [session_start]
    exact hc.2
  producer _ hc hm := ⟨hc.1.producerMove hm, hc.2.producerMove hc.1 hm⟩
  writer _ hc hm hok := ⟨hc.1.writerMove hm hok, .writerMove hc.1 hm⟩

/-- The acknowledgement that a producer waits for settles the thread. -/
theorem settled_of_served (hs : Safe capacity c)
    (hinv : ¬ c.Failed → Coordinated c h ∧ Emptied c h) {ticket : Nat}
    (hawait : c.producer = .awaitFlush ticket ∨ c.producer = .waiting ticket)
    (hlt : c.session.shared.flushed < ticket) {sh : CaptureShared} {t : WriterThread σ}
    {written : List WriterCall}
    (hm : WriterMoves c.session.shared c.session.thread.writer c.session.thread.bytes
      c.session.thread.phase sh t written) (hle : ticket ≤ sh.flushed) :
    Settled ⟨{ c.session with shared := sh, thread := t }, c.producer⟩
      { h with written := h.written ++ written } := by
  have hunread := Ring.Queues.sizeToRead_eq hs.sound
  obtain ⟨⟨shared, ⟨phase, writer, bytes⟩, joined, queued, log⟩, producer⟩ := c
  dsimp only at hm hlt hawait hunread
  cases hm with
  | acknowledge =>
    rename_i stop requested
    obtain ⟨⟨hp, ht⟩, hemptied⟩ := hinv (by rintro ⟨r, hr, -⟩; cases hr)
    obtain ⟨hempty, hlast⟩ := hemptied stop requested rfl
    obtain ⟨hdrained, heq, -⟩ := ht
    have hstop : shared.stop = false := by
      rcases hawait with rfl | rfl
      · exact hp.1
      · exact hp.1
    dsimp only at heq hdrained hempty
    rw [hempty] at hunread
    refine ⟨⟨hstop, Nat.le_of_eq heq.symm, hunread⟩, ?_, ?_⟩
    · refine Bool.eq_false_iff.mpr fun hs => ?_
      exact nomatch (hdrained hs).1.symm.trans hstop
    · rwa [List.append_nil]
  | _ => exact absurd hle (Nat.not_le_of_lt hlt)

theorem flushes_writerStep (hs : Safe capacity c)
    (hinv : ¬ c.Failed → Coordinated c h ∧ Emptied c h)
    (hf : c.producer.Flushes c.session.shared.flushed (Settled c h)) :
    c.writerStep.producer.Flushes c.writerStep.session.shared.flushed
      (Settled c.writerStep { h with written := h.written ++ c.writtenNext }) := by
  have hsettled : Settled c h →
      Settled c.writerStep { h with written := h.written ++ c.writtenNext } :=
    fun hc => hc.writerStep
  have hopen : ∀ ticket, (c.producer = .awaitFlush ticket ∨ c.producer = .waiting ticket) →
      (ticket ≤ c.session.shared.flushed → Settled c h) →
      ticket ≤ c.writerStep.session.shared.flushed →
      Settled c.writerStep { h with written := h.written ++ c.writtenNext } := by
    intro ticket hawait hdone hle
    rcases Nat.lt_or_ge c.session.shared.flushed ticket with hlt | hserved
    · exact settled_of_served hs hinv hawait hlt hs.writerMoves hle
    · exact hsettled (hdone hserved)
  have hproducer : c.writerStep.producer = c.producer := rfl
  rw [hproducer]
  generalize c.producer = phase at hf hopen
  cases phase with
  | requestFlush => trivial
  | awaitFlush ticket => exact hopen ticket (.inl rfl) hf
  | waiting ticket => exact hopen ticket (.inr rfl) hf
  | returned reply => exact fun answer hanswer => hsettled (hf answer hanswer)
  | _ => exact hf.elim

/-- While a flush is the last call, it is open, or refused, or the thread idles behind it. -/
theorem Reaches.flushes (hstart : CaptureSession.start w capacity = (.ok s, sink))
    (hreach : Reaches p s c h) (hlast : h.calls.getLast? = some .flush) :
    c.producer.Flushes c.session.shared.flushed (Settled c h) := by
  induction hreach with
  | idle => cases hlast
  | call hc hret hopen call ih =>
    rw [List.getLast?_concat] at hlast
    cases hlast
    trivial
  | producer hc ih =>
    exact flushes_producerMove (hc.numbered hstart) (ih hlast) ((hc.safe hstart).producerMoves p)
  | writer hc ih =>
    exact flushes_writerStep (hc.safe hstart) (hc.invariant (invariant_emptied hstart) hstart)
      (ih hlast)

/-- Behind a flush that succeeded every byte queued is written, and the flush came last. -/
theorem settled_of_flush (hstart : CaptureSession.start w capacity = (.ok s, sink))
    (hreach : Reaches p s c h) (hlast : h.calls.getLast? = some .flush)
    {answer : Option CaptureStats} (hreply : c.reply? = some (.ok answer)) :
    Settled c h ∧ c.session.shared.ring.contents = .empty ∧
      c.session.thread.phase.inHand = .empty ∧ h.appended = h.queued ∧
      WriterCall.bytes h.plain = h.queued ∧
      w.performAll h.written = (.ok (), c.session.thread.writer) := by
  have hsettled : Settled c h := by
    have hf := hreach.flushes hstart hlast
    obtain ⟨session, phase⟩ := c
    cases phase with
    | returned reply => exact hf answer (Option.some.inj hreply)
    | _ => cases hreply
  obtain ⟨-, ha⟩ := hreach.invariant (invariant_accounted hstart) hstart hsettled.not_failed
  have hring : c.session.shared.ring.contents = .empty := by
    have hsize := Ring.Queues.sizeToRead_eq (hreach.safe hstart).sound
    rw [hsettled.quiet.unread] at hsize
    exact ByteArray.size_eq_zero_iff.mp hsize.symm
  have hhand : c.session.thread.phase.inHand = .empty := by
    have hidle := hsettled.idle
    generalize c.session.thread.phase = phase at hidle ⊢
    cases phase with
    | append => exact hidle.elim
    | _ => rfl
  have hbytes := ha.bytes
  have hasked := ha.asked
  rw [hring, hhand, ByteArray.append_empty, ByteArray.append_empty] at hbytes
  rw [rest_of_reply (by rw [hreply]; rfl), ByteArray.append_empty] at hasked
  exact ⟨hsettled, hring, hhand, hbytes, hasked, ha.replay⟩

end Capture

open LawfulSink

/-- What a flush of a writer that succeeds did last: it flushed the sink, which took no more bytes
since. -/
theorem Writer.flush_eq_ok {σ : Type} [LawfulSink σ] {u w : Writer σ}
    (h : u.flush = (.ok (), w)) :
    ∃ v, u.flushChunk = (.ok (), v) ∧ Sink.flush v.inner = (.ok (), w.inner) ∧
      contents w.inner = contents v.inner := by
  rw [flush_eq, andThen_eq_ok] at h
  obtain ⟨v, hv, hsink⟩ := h
  have hsame := contents_flush v.inner
  cases hflush : Sink.flush v.inner with
  | mk o inner =>
    rw [hflush] at hsink hsame
    cases o <;> cases hsink
    exact ⟨v, hv, hflush, hsame⟩

namespace Capture

/-- Whatever calls are made on a capture, however the steps of the two threads are interleaved and
whatever the sink does: when a flush returns without an error, all bytes queued ahead of it are in a
whole trace file, behind those that the writer held at the start, and nothing is left anywhere else.
The last that was done to the sink is its own flush. -/
theorem flush_is_a_barrier {σ : Type} [LawfulSink σ] {p : Profile} {codec : Codec} {n : Nat}
    {sink sink₁ sink₂ : σ} {w₀ w : Writer σ} {earlier : List WriterCall} {capacity : Nat}
    {s : CaptureSession σ} {c : Capture σ} {h : CaptureHistory} {before : List CaptureCall}
    {answer : Option CaptureStats} (hc : codec.Lawful)
    (hopen : Writer.start sink n codec = (.ok w₀, sink₁))
    (hearlier : w₀.performAll earlier = (.ok (), w))
    (hstart : CaptureSession.start w capacity = (.ok s, sink₂)) (hreach : Reaches p s c h)
    (hcalls : h.calls = before ++ [.flush]) (hreply : c.reply? = some (.ok answer)) :
    let written := c.session.thread.writer
    c.session.shared.ring.contents = .empty ∧ c.session.thread.phase.inHand = .empty ∧
    written.staged = .empty ∧ h.queued = WriterCall.bytes (before.flatMap CaptureCall.plain) ∧
    (∃ calls u v, h.written = calls ++ [.flush] ∧ WriterCall.bytes calls = h.queued ∧
      w.performAll calls = (.ok (), u) ∧ u.flushChunk = (.ok (), v) ∧
      Sink.flush v.inner = (.ok (), written.inner) ∧
      contents written.inner = contents v.inner) ∧
    ∃ blocks chunks, contents written.inner =
        contents sink ++ (magic ++ Entry.writtenAll blocks) ∧
      List.Forall₂ codec.Encodes blocks chunks ∧
      Bytes.concat chunks = WriterCall.bytes earlier ++ h.queued ∧
      ∀ (τ : Type) [LawfulSource τ] (source : τ), Source.FaultFree source →
        LawfulSource.contents source = magic ++ Entry.writtenAll blocks →
        ∃ r, Reader.start source codec = .ok r ∧
          r.Delivers (WriterCall.bytes earlier ++ h.queued) := by
  intro written
  obtain ⟨hsettled, hring, hhand, hqueued, hasked, hreplay⟩ :=
    settled_of_flush hstart hreach (by rw [hcalls, List.getLast?_concat]) hreply
  obtain ⟨calls, hlast⟩ := hsettled.flushed_last
  have hall : WriterCall.bytes calls = h.queued := by
    rw [← hqueued, CaptureHistory.appended, hlast, WriterCall.bytes_append]
    exact ByteArray.append_empty.symm
  -- the calls of the thread end in a flush
  have hrun := hreplay
  rw [hlast, Writer.performAll_append, Writer.andThen_eq_ok] at hrun
  obtain ⟨u, hu, hflush⟩ := hrun
  rw [Writer.performAll_singleton] at hflush
  have hempty : written.staged = .empty := Writer.staged_of_flush hflush
  obtain ⟨v, hv, hsink, hsame⟩ := Writer.flush_eq_ok hflush
  refine ⟨hring, hhand, hempty, ?_, ⟨calls, u, v, hlast, hall, hu, hv, hsink, hsame⟩, ?_⟩
  · rw [← hasked, CaptureHistory.plain, hcalls, List.flatMap_append, WriterCall.bytes_append]
    exact ByteArray.append_empty
  -- a whole trace before the capture is whole now, as no call failed
  obtain ⟨hkept, hwhole⟩ := Writer.kept_start hc hopen
  obtain ⟨hkept₁, hwhole₁⟩ := hkept.steps hwhole (.of_performAll hearlier)
  obtain ⟨hkept₂, hwhole₂⟩ := hkept₁.steps hwhole₁ (.of_performAll hreplay)
  obtain ⟨file, blocks, chunks, hfile, henc, hgiven, -, -, hentries⟩ := hkept₂.entries
  have hexact := hentries ((Writer.whole_iff hfile).mp hwhole₂)
  have hchunks : Bytes.concat chunks = WriterCall.bytes earlier ++ h.queued := by
    rw [← hqueued, CaptureHistory.appended,
      ← ByteArray.empty_append (b := WriterCall.bytes earlier), ← hgiven]
    exact (hempty ▸ ByteArray.append_empty).symm
  subst hexact
  refine ⟨blocks, chunks, hfile, henc, hchunks, fun τ _ source hfree hcontents => ?_⟩
  obtain ⟨r, hr, hholds⟩ := Reader.start_holds ⟨hfree, hcontents, rfl⟩
    (ByteArray.extract_append_eq_left rfl) (Codec.decodes_writtenAll hc.max_lt henc magic)
  rw [hchunks] at hholds
  exact ⟨r, hr, hholds.delivers⟩

/-- A flush is asked for while two bytes are in the ring. The thread sees the request before it
looks at the ring, and serves it once it has seen the ring empty. -/
theorem reaches_flush_of_two_bytes {σ : Type} [Sink σ] {w w₁ w₂ : Writer σ} {s : CaptureSession σ}
    (hs : s = ⟨⟨⟨⟨#[0, 0, 0]⟩, 0, 0⟩, false, 0, 0⟩, .start w, false, 0, #[]⟩)
    (happend : w.append ⟨#[1, 2]⟩ = (.ok (), w₁)) (hflush : w₁.flush = (.ok (), w₂)) :
    ∃ c h, Reaches .checked s c h ∧ h.calls = [.write ⟨#[1, 2]⟩, .flush] ∧
      c.reply? = some (.ok none) ∧ c.session.thread.writer = w₂ := by
  let asked (ring : Ring) (phase : WriterPhase) (w : Writer σ) (n : Nat) : Capture σ :=
    ⟨⟨⟨ring, false, 1, 0⟩, ⟨phase, w, n⟩, false, 2, #[]⟩, .awaitFlush 1⟩
  let filled : Ring := ⟨⟨#[1, 2, 0]⟩, 2, 0⟩
  let drained : Ring := ⟨⟨#[1, 2, 0]⟩, 2, 2⟩
  obtain ⟨h₁, hwritten, hcalls₁⟩ := reaches_two_bytes hs
  have hopen : h₁.Open := by simp [CaptureHistory.Open, hcalls₁, CaptureCall.closes]
  obtain ⟨h₂, hseen, hcalls₂⟩ : ∃ h, Reaches .checked s (asked filled (.copyOut 2) w 0) h ∧
      h.calls = h₁.calls ++ [CaptureCall.flush] :=
    (hwritten.call rfl hopen .flush).run [.producer, .writer, .writer, .writer]
  obtain ⟨h₃, hcopied, hcalls₃⟩ : ∃ h, Reaches .checked s
      (asked filled (.advance ⟨#[1, 2]⟩) w 0) h ∧ h.calls = h₂.calls := hseen.run [.writer]
  obtain ⟨h₄, htaken, hcalls₄⟩ : ∃ h, Reaches .checked s
      (asked drained (.append ⟨#[1, 2]⟩) w 0) h ∧ h.calls = h₃.calls := hcopied.run [.writer]
  have happended := writerStep_eq (WriterThread.step_append happend) ▸ htaken.writer
  -- the next round finds the ring empty and serves the request
  obtain ⟨h₅, hempty, hcalls₅⟩ : ∃ h, Reaches .checked s
      (asked drained (.serveFlush false 1) w₁ 2) h ∧ h.calls = h₄.calls :=
    happended.run (List.replicate 3 .writer)
  have hserve : WriterThread.step ⟨drained, false, 1, 0⟩ ⟨.serveFlush false 1, w₁, 2⟩ =
      (⟨drained, false, 1, 0⟩, ⟨.acknowledge false 1, w₂, 2⟩) :=
    WriterThread.step_serveFlush Nat.zero_lt_one hflush
  have hflushed := writerStep_eq hserve ▸ hempty.writer
  obtain ⟨h₆, hserved, hcalls₆⟩ : ∃ h, Reaches .checked s
      ⟨⟨⟨drained, false, 1, 1⟩, ⟨.pause false, w₂, 2⟩, false, 2, #[]⟩, .returned (.ok none)⟩ h ∧
        h.calls = h₅.calls := hflushed.run [.writer, .producer]
  refine ⟨_, h₆, hserved, ?_, rfl, rfl⟩
  rw [hcalls₆, hcalls₅]
  exact hcalls₄.trans (by rw [hcalls₃, hcalls₂, hcalls₁]; rfl)

theorem flush_is_a_barrier_behind_two_bytes :
    ∃ (w₀ w : Writer MemorySink) (s : CaptureSession MemorySink) (c : Capture MemorySink)
      (h : CaptureHistory) (r : Reader MemorySource),
      Writer.start (MemorySink.new .none) 4 (.lz4 .checked) = (.ok w₀, w₀.inner) ∧
      w₀.performAll [.append ⟨#[9]⟩] = (.ok (), w) ∧
      CaptureSession.start w 3 = (.ok s, w.inner) ∧ Reaches .checked s c h ∧
      h.calls = [.write ⟨#[1, 2]⟩, .flush] ∧ c.reply? = some (.ok none) ∧
      c.session.shared.ring.contents = .empty ∧ c.session.thread.writer.staged = .empty ∧
      Reader.start (MemorySource.new c.session.thread.writer.inner.data .none) (.lz4 .checked) =
        .ok r ∧ r.Delivers ⟨#[9, 1, 2]⟩ := by
  have hsink : Sink.FaultFree (MemorySink.new .none) := MemorySink.faultFree rfl
  obtain ⟨w₀, hw₀, -, hstaged₀, -, hwrote⟩ :=
    Writer.wrote_start hsink (Lz4.lawful_lz4 .checked) (show 0 < 4 by decide) (by decide)
  obtain ⟨w, _, cs, hw, -, hwrote, hdata₀⟩ := hwrote.performAll [.append ⟨#[9]⟩]
  obtain ⟨w₁, _, cs₁, happend, -, hwrote, hdata₁⟩ := hwrote.appendFrom ⟨#[1, 2]⟩ 0
  obtain ⟨w₂, _, hflush, -, -, hwrote⟩ := hwrote.flush
  obtain ⟨s, hs⟩ : ∃ s : CaptureSession MemorySink,
      s = ⟨⟨⟨⟨#[0, 0, 0]⟩, 0, 0⟩, false, 0, 0⟩, .start w, false, 0, #[]⟩ := ⟨_, rfl⟩
  have hstart : CaptureSession.start w 3 = (.ok s, w.inner) :=
    hs ▸ CaptureSession.start_eq w (by decide) (by decide)
  obtain ⟨c, h, hreach, hcalls, hreply, hwriter⟩ := reaches_flush_of_two_bytes hs happend hflush
  obtain ⟨hring, -, hstaged, hqueued, -, blocks, chunks, hcontents, henc, hall, hread⟩ :=
    flush_is_a_barrier (Lz4.lawful_lz4 .checked) hw₀ hw hstart hreach
      (show h.calls = [.write ⟨#[1, 2]⟩] ++ [.flush] from hcalls) hreply
  rw [hwriter] at hcontents hstaged
  have hbytes : WriterCall.bytes [.append ⟨#[9]⟩] ++ h.queued = ⟨#[9, 1, 2]⟩ := by
    rw [hqueued]
    rfl
  rw [hbytes] at hread
  have hdata : w₂.inner.data = magic ++ Entry.writtenAll blocks :=
    hcontents.trans ByteArray.empty_append
  have hlt : w₂.inner.data.size < Word.max := by
    have hsize := hwrote.size_le
    have hfile : w₂.inner.data = _ := hwrote.contents_eq.trans ByteArray.empty_append
    rw [← hfile, Bytes.concat_append, Writer.concat_stagedChunk, Bytes.concat_append,
      ByteArray.append_assoc, hdata₁, ← ByteArray.append_assoc, List.nil_append, hdata₀,
      hstaged₀] at hsize
    exact Nat.lt_of_le_of_lt hsize (by decide)
  rw [← hdata] at hread
  obtain ⟨r, hr, hdelivers⟩ := hread MemorySource (MemorySource.new w₂.inner.data .none)
    (MemorySource.sound_new hlt).faultFree rfl
  exact ⟨w₀, w, s, c, h, r, hw₀, hw, hstart, hreach, hcalls, hreply, hring, hwriter ▸ hstaged,
    hwriter ▸ hr, hdelivers⟩

end Capture

end TraceCapture
