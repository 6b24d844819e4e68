import TraceCapture.Proofs.Capture.Moves

set_option autoImplicit false

namespace TraceCapture

def CaptureShared.Drained (sh : CaptureShared) : Prop :=
  sh.stop = true ∧ sh.ring.contents = .empty

/-- What the producer relies on; `isOpen` says whether another call can follow. -/
def ProducerPhase.Agrees (sh : CaptureShared) (isOpen : Prop) : ProducerPhase → Prop
  | findRoom .. | stalled .. | queue .. | requestFlush =>
      sh.stop = false ∧ sh.flushRequested = sh.flushed
  | awaitFlush ticket | waiting ticket =>
      sh.stop = false ∧ ticket = sh.flushRequested ∧ sh.flushed ≤ ticket ∧ ticket ≤ sh.flushed + 1
  | requestStop _ => ¬ isOpen ∧ sh.stop = false ∧ sh.flushRequested = sh.flushed
  | join _ => ¬ isOpen ∧ sh.stop = true ∧ sh.flushRequested = sh.flushed
  | returned _ => (sh.stop = true → ¬ isOpen) ∧ sh.flushRequested = sh.flushed

def WriterPhase.Agrees (sh : CaptureShared) : WriterPhase → Prop
  | loadStop | copyOut _ | advance _ | append _ => True
  | loadRequest stop => stop = true → sh.stop = true
  | lookAtRing stop requested =>
      (stop = true → sh.stop = true) ∧ requested ≤ sh.flushRequested
  | serveFlush stop requested =>
      (stop = true → sh.Drained) ∧ requested ≤ sh.flushRequested ∧
        (sh.flushed < requested → sh.ring.contents = .empty)
  | acknowledge stop requested =>
      (stop = true → sh.Drained) ∧ requested = sh.flushRequested ∧ sh.flushed < requested
  | pause stop => stop = true → sh.Drained
  | flushLast | close _ => sh.Drained
  | ended _ => sh.Drained

theorem ProducerPhase.Agrees.open_flush {sh : CaptureShared} {isOpen : Prop} {phase : ProducerPhase}
    (h : phase.Agrees sh isOpen) : sh.flushRequested ≤ sh.flushed + 1 := by
  cases phase <;> simp only [Agrees] at h <;> omega

theorem ProducerPhase.Agrees.acknowledge {sh : CaptureShared} {isOpen : Prop}
    {phase : ProducerPhase} (h : phase.Agrees sh isOpen) :
    phase.Agrees { sh with flushed := sh.flushRequested } isOpen := by
  cases phase with
  | findRoom | stalled | queue | requestFlush => exact ⟨h.1, rfl⟩
  | awaitFlush | waiting =>
    obtain ⟨hstop, rfl, -⟩ := h
    exact ⟨hstop, rfl, Nat.le_refl _, Nat.le_succ _⟩
  | requestStop | join => exact ⟨h.1, h.2.1, rfl⟩
  | returned => exact ⟨h.1, rfl⟩

/-- While no request is open, the thread relies on nothing that queueing more could change. -/
theorem WriterPhase.Agrees.queue {sh : CaptureShared} {phase : WriterPhase} (h : phase.Agrees sh)
    (hstop : sh.stop = false) (hserved : sh.flushRequested = sh.flushed) (ring : Ring) :
    phase.Agrees { sh with ring } := by
  have hnot : ¬ sh.Drained := fun hd => by simp [hd.1] at hstop
  cases phase with
  | loadStop | copyOut | advance | append => trivial
  | loadRequest | lookAtRing => exact h
  | serveFlush stop requested =>
    obtain ⟨hdrained, hle, -⟩ := h
    refine ⟨fun hs => absurd (hdrained hs) hnot, hle, fun hlt => ?_⟩
    change sh.flushed < requested at hlt
    omega
  | acknowledge stop requested =>
    obtain ⟨-, heq, hlt⟩ := h
    omega
  | pause stop => exact fun hs => absurd (h hs) hnot
  | flushLast | close | ended => exact absurd h hnot

theorem WriterPhase.Agrees.requestFlush {sh : CaptureShared} {phase : WriterPhase}
    (h : phase.Agrees sh) (hserved : sh.flushRequested = sh.flushed) :
    phase.Agrees { sh with flushRequested := sh.flushRequested + 1 } := by
  cases phase with
  | lookAtRing stop requested => exact ⟨h.1, Nat.le_succ_of_le h.2⟩
  | serveFlush stop requested => exact ⟨h.1, Nat.le_succ_of_le h.2.1, h.2.2⟩
  | acknowledge stop requested =>
    obtain ⟨-, heq, hlt⟩ := h
    omega
  | _ => exact h

theorem WriterPhase.Agrees.requestStop {sh : CaptureShared} {phase : WriterPhase}
    (h : phase.Agrees sh) : phase.Agrees { sh with stop := true } := by
  cases phase with
  | loadStop | copyOut | advance | append => trivial
  | loadRequest stop => exact fun _ => rfl
  | lookAtRing stop requested => exact ⟨fun _ => rfl, h.2⟩
  | serveFlush stop requested => exact ⟨fun hs => ⟨rfl, (h.1 hs).2⟩, h.2⟩
  | acknowledge stop requested => exact ⟨fun hs => ⟨rfl, (h.1 hs).2⟩, h.2⟩
  | pause stop => exact fun hs => ⟨rfl, (h hs).2⟩
  | flushLast | close | ended => exact ⟨rfl, h.2⟩

namespace Capture

variable {σ : Type} {c : Capture σ} {h : CaptureHistory}

structure Coordinated (c : Capture σ) (h : CaptureHistory) : Prop where
  producer : c.producer.Agrees c.session.shared h.Open
  thread : c.session.thread.phase.Agrees c.session.shared

/-- The thread does not end by itself while the producer waits for it. -/
theorem Coordinated.not_ended (hc : Coordinated c h) (hwaits : c.producer.Waits) :
    ¬ ∃ r, c.session.thread.phase = .ended r := by
  rintro ⟨r, hr⟩
  obtain ⟨⟨shared, thread, joined, queued, log⟩, phase⟩ := c
  obtain ⟨hp, ht⟩ := hc
  dsimp only at hp ht hr
  rw [hr] at ht
  have hstop : shared.stop = false := by
    cases phase with
    | stalled | waiting => exact hp.1
    | _ => exact hwaits.elim
  exact nomatch ht.1.symm.trans hstop

theorem Coordinated.producerMove {c' : Capture σ} {queued : ByteArray} (hc : Coordinated c h)
    (hm : ProducerMoves c.session c.producer c' queued) :
    Coordinated c' { h with queued := h.queued ++ queued } := by
  obtain ⟨s, phase⟩ := c
  obtain ⟨hp, ht⟩ := hc
  dsimp only at hm hp ht
  cases hm with
  | done => exact ⟨⟨fun hs => (nomatch hs.symm.trans hp.1), hp.2⟩, ht⟩
  | full | room | retry | unserved | retryFlush | wait | rest => exact ⟨hp, ht⟩
  | queue => exact ⟨hp, ht.queue hp.1 hp.2 _⟩
  | requestFlush =>
    obtain ⟨hstop, hserved⟩ := hp
    refine ⟨⟨hstop, rfl, ?_, ?_⟩, ht.requestFlush hserved⟩
    · change s.shared.flushed ≤ s.shared.flushRequested + 1
      omega
    · change s.shared.flushRequested + 1 ≤ s.shared.flushed + 1
      omega
  | served hle =>
    obtain ⟨hstop, rfl, hge, -⟩ := hp
    exact ⟨⟨fun hs => (nomatch hs.symm.trans hstop), Nat.le_antisymm hle hge⟩, ht⟩
  | fault hwaits hended =>
    have hc : Coordinated ⟨s, phase⟩ h := ⟨hp, ht⟩
    exact absurd hended (hc.not_ended hwaits)
  | requestStop => exact ⟨⟨hp.1, rfl, hp.2.2⟩, ht.requestStop⟩
  | join => exact ⟨⟨fun _ => hp.1, hp.2.2⟩, ht⟩

theorem Coordinated.writerMove [Sink σ] {sh : CaptureShared} {t : WriterThread σ}
    {written : List WriterCall} (hc : Coordinated c h)
    (hm : WriterMoves c.session.shared c.session.thread.writer c.session.thread.bytes
      c.session.thread.phase sh t written) (hok : ¬ t.Failed) :
    Coordinated ⟨{ c.session with shared := sh, thread := t }, c.producer⟩
      { h with written := h.written ++ written } := by
  obtain ⟨⟨shared, ⟨phase, writer, bytes⟩, joined, queued, log⟩, producer⟩ := c
  obtain ⟨hp, ht⟩ := hc
  dsimp only at hm hp ht ⊢
  cases hm with
  | loadStop => exact ⟨hp, id⟩
  | loadRequest => exact ⟨hp, ht, Nat.le_refl _⟩
  | bytesSeen | copyOut | advance | append | again => exact ⟨hp, trivial⟩
  | nothingSeen hempty => exact ⟨hp, fun hs => ⟨ht.1 hs, hempty⟩, ht.2, fun _ => hempty⟩
  | flush hlt =>
    obtain ⟨hdrained, hle, -⟩ := ht
    have hopen := hp.open_flush
    exact ⟨hp, hdrained, Nat.le_antisymm hle (Nat.le_trans hopen hlt), hlt⟩
  | skip => exact ⟨hp, ht.1⟩
  | acknowledge =>
    obtain ⟨hdrained, rfl, -⟩ := ht
    exact ⟨hp.acknowledge, hdrained⟩
  | stop => exact ⟨hp, ht rfl⟩
  | flushLast | close | rest => exact ⟨hp, ht⟩
  | fail _ hfailed => exact absurd hfailed hok

theorem CaptureHistory.not_open_of_closes {call : CaptureCall} (hcloses : call.closes = true) :
    ¬ ({ h with calls := h.calls ++ [call] } : CaptureHistory).Open := by
  intro hopen
  have hfalse := hopen call (by simp)
  simp [hcloses] at hfalse

theorem Coordinated.stop_eq_false (hc : Coordinated c h) (hret : c.reply?.isSome)
    (hopen : h.Open) : c.session.shared.stop = false := by
  obtain ⟨s, phase⟩ := c
  have hp : phase.Agrees s.shared h.Open := hc.producer
  cases phase with
  | returned reply => simpa [hopen] using hp.1
  | _ => cases hret

theorem Coordinated.call (hc : Coordinated c h) (hret : c.reply?.isSome) (hopen : h.Open)
    (call : CaptureCall) :
    Coordinated (start c.session call) { h with calls := h.calls ++ [call] } := by
  have hstop := hc.stop_eq_false hret hopen
  obtain ⟨s, phase⟩ := c
  obtain ⟨hp, ht⟩ := hc
  cases phase with
  | returned reply =>
    have hserved := hp.2
    cases call with
    | write | flush => exact ⟨⟨hstop, hserved⟩, ht⟩
    | finish => exact ⟨⟨CaptureHistory.not_open_of_closes rfl, hstop, hserved⟩, ht⟩
    | drop =>
      have hnot : ¬ ({ h with calls := h.calls ++ [.drop] } : CaptureHistory).Open :=
        CaptureHistory.not_open_of_closes rfl
      change Coordinated (if s.joined then _ else _) _
      split
      · exact ⟨⟨fun _ => hnot, hserved⟩, ht⟩
      · exact ⟨⟨hnot, hstop, hserved⟩, ht⟩
  | _ => cases hret

theorem invariant_coordinated [Sink σ] {w : Writer σ} {capacity : Nat} {s : CaptureSession σ}
    {sink : σ} (hstart : CaptureSession.start w capacity = (.ok s, sink)) :
    Invariant capacity s Coordinated where
  idle := by
    obtain ⟨-, ring, -, rfl⟩ := CaptureSession.start_eq_ok hstart
    exact ⟨⟨nofun, rfl⟩, trivial⟩
  call _ hc := hc.call
  producer _ hc := hc.producerMove
  writer _ hc hm hok := hc.writerMove hm hok

end Capture

end TraceCapture
