import TraceCapture.Proofs.Capture.Accounting

set_option autoImplicit false

namespace TraceCapture

open WriterCall (Equivalent)

def ProducerPhase.openFlush (served : Nat) : ProducerPhase → List WriterCall
  | requestFlush => [.flush]
  | awaitFlush ticket | waiting ticket => if served < ticket then [.flush] else []
  | _ => []

theorem ProducerPhase.Agrees.flushed_le {sh : CaptureShared} {isOpen : Prop}
    {phase : ProducerPhase} (h : phase.Agrees sh isOpen) : sh.flushed ≤ sh.flushRequested := by
  cases phase <;> simp only [Agrees] at h <;> omega

theorem ProducerPhase.Agrees.of_open {sh : CaptureShared} {isOpen : Prop} {phase : ProducerPhase}
    (h : phase.Agrees sh isOpen) (hlt : sh.flushed < sh.flushRequested) :
    phase.rest = .empty ∧
      ∀ served, phase.openFlush served = if served < sh.flushRequested then [.flush] else [] := by
  cases phase with
  | awaitFlush | waiting =>
    obtain ⟨-, rfl, -⟩ := h
    exact ⟨rfl, fun _ => rfl⟩
  | _ =>
    simp only [Agrees] at h
    omega

theorem ProducerPhase.Agrees.of_stop {sh : CaptureShared} {isOpen : Prop} {phase : ProducerPhase}
    (h : phase.Agrees sh isOpen) (hstop : sh.stop = true) :
    phase.rest = .empty ∧ ∀ served, phase.openFlush served = [] := by
  cases phase with
  | join | returned => exact ⟨rfl, fun _ => rfl⟩
  | _ => simp [Agrees, hstop] at h

def WriterPhase.closing : WriterPhase → List WriterCall
  | close _ => [.flush]
  | ended _ => [.flush, .flush]
  | _ => []

theorem WriterCall.equivalent_flush_append_empty :
    Equivalent [.flush, .append .empty] [.append .empty, .flush] := by
  have hleft : Equivalent ([.flush] ++ [.append .empty]) ([.flush] ++ []) :=
    (Equivalent.refl _).append equivalent_append_empty
  have hright : Equivalent ([.append .empty] ++ [.flush]) ([] ++ [.flush]) :=
    equivalent_append_empty.append (.refl _)
  exact hleft.trans hright.symm

namespace Capture

variable {σ : Type}

def served (c : Capture σ) : Nat :=
  match c.session.thread.phase with
  | .acknowledge _ requested => requested
  | _ => c.session.shared.flushed

def unwritten (c : Capture σ) : ByteArray :=
  c.session.thread.phase.inHand ++ c.session.shared.ring.contents ++ c.producer.rest

/-- What the calls so far have yet to come to on the trace writer. -/
def pending (c : Capture σ) : List WriterCall :=
  .append c.unwritten :: c.producer.openFlush c.served

def Ordered (c : Capture σ) (h : CaptureHistory) : Prop :=
  Equivalent (h.written ++ c.pending) (h.plain ++ c.session.thread.phase.closing)

variable {c : Capture σ} {h : CaptureHistory}

theorem Coordinated.flushed_le_served (hc : Coordinated c h) :
    c.session.shared.flushed ≤ c.served := by
  obtain ⟨⟨shared, ⟨phase, writer, bytes⟩, joined, queued, log⟩, producer⟩ := c
  have ht : phase.Agrees shared := hc.thread
  cases phase with
  | acknowledge => exact Nat.le_of_lt ht.2.2
  | _ => exact Nat.le_refl _

theorem Coordinated.served_le (hc : Coordinated c h) :
    c.served ≤ c.session.shared.flushRequested := by
  have hp := hc.producer.flushed_le
  obtain ⟨⟨shared, ⟨phase, writer, bytes⟩, joined, queued, log⟩, producer⟩ := c
  have ht : phase.Agrees shared := hc.thread
  cases phase with
  | acknowledge => exact Nat.le_of_eq ht.2.1
  | _ => exact hp

/-- A step of the producer only passes on what is pending. -/
theorem pending_producerMove {c' : Capture σ} {queued : ByteArray} (hc : Coordinated c h)
    (hm : ProducerMoves c.session c.producer c' queued) : c'.pending = c.pending := by
  have hge := hc.flushed_le_served
  have hle := hc.served_le
  obtain ⟨s, phase⟩ := c
  dsimp only at hm
  cases hm with
  | done hend =>
    rename_i data i
    have hrest : data.extract i data.size = .empty :=
      ByteArray.extract_eq_empty_iff.mpr (Nat.le_trans (Nat.min_le_left _ _) hend)
    simp only [pending, unwritten, ProducerPhase.rest, ProducerPhase.openFlush, hrest]
  | queue hi hj hring hsound hcap =>
    rename_i data i j ring
    have hsplit : data.extract i data.size = data.extract i j ++ data.extract j data.size :=
      (Bytes.extract_append_extract_rest data (Nat.le_of_lt hi)).symm
    simp only [pending, unwritten, ProducerPhase.rest, ProducerPhase.openFlush, hring, hsplit,
      ByteArray.append_assoc]
  | requestFlush =>
    have hopen : served ⟨s, .requestFlush⟩ < s.shared.flushRequested + 1 := Nat.lt_succ_of_le hle
    exact congrArg (List.cons _) (if_pos hopen)
  | served hdone =>
    rename_i ticket
    have hnot : ¬ served ⟨s, .awaitFlush ticket⟩ < ticket :=
      Nat.not_lt.mpr (Nat.le_trans hdone hge)
    exact congrArg (List.cons _) (if_neg hnot).symm
  | fault hwaits hended => exact absurd hended (hc.not_ended hwaits)
  | _ => rfl

theorem Coordinated.closing_eq_nil (hc : Coordinated c h) (hstop : c.session.shared.stop = false) :
    c.session.thread.phase.closing = [] := by
  obtain ⟨⟨shared, ⟨phase, writer, bytes⟩, joined, queued, log⟩, producer⟩ := c
  have ht : phase.Agrees shared := hc.thread
  cases phase with
  | close | ended => exact nomatch ht.1.symm.trans hstop
  | _ => rfl

/-- A step keeps the order if what it makes pending, behind what it writes, is what was pending. -/
theorem Ordered.step (ho : Ordered c h) {c' : Capture σ} {written extra : List WriterCall}
    (hnext : Equivalent (written ++ c'.pending) (c.pending ++ extra))
    (hclosing : c'.session.thread.phase.closing = c.session.thread.phase.closing ++ extra) :
    Ordered c' { h with written := h.written ++ written } := by
  have hold : Equivalent (h.written ++ c.pending ++ extra)
      (h.plain ++ c.session.thread.phase.closing ++ extra) := ho.append (.refl extra)
  have hnew : Equivalent (h.written ++ (written ++ c'.pending))
      (h.written ++ (c.pending ++ extra)) := (Equivalent.refl h.written).append hnext
  rw [List.append_assoc, List.append_assoc, ← hclosing] at hold
  rw [← List.append_assoc] at hnew
  exact hnew.trans hold

theorem Ordered.look (ho : Ordered c h) {c' : Capture σ} (hpending : c'.pending = c.pending)
    (hclosing : c'.session.thread.phase.closing = c.session.thread.phase.closing) :
    Ordered c' { h with written := h.written ++ [] } := by
  have hnext : Equivalent ([] ++ c'.pending) (c.pending ++ []) := by
    rw [hpending, List.append_nil]
    exact .refl _
  refine ho.step hnext ?_
  rw [hclosing, List.append_nil]

theorem Ordered.flushOnce (ho : Ordered c h) (hc : Coordinated c h)
    (hdrained : c.session.shared.Drained) {t : WriterThread σ}
    (hhand : c.session.thread.phase.inHand = .empty) (hhand' : t.phase.inHand = .empty)
    (hclosing : t.phase.closing = c.session.thread.phase.closing ++ [.flush]) :
    Ordered ⟨{ c.session with thread := t }, c.producer⟩
      { h with written := h.written ++ [.flush] } := by
  obtain ⟨hrest, hopen⟩ := hc.producer.of_stop hdrained.1
  have hbefore : c.pending = [.append .empty] := by
    simp [pending, unwritten, hhand, hdrained.2, hrest, hopen]
  have hafter : pending ⟨{ c.session with thread := t }, c.producer⟩ = [.append .empty] := by
    simp [pending, unwritten, hhand', hdrained.2, hrest, hopen]
  refine ho.step ?_ hclosing
  rw [hbefore, hafter]
  exact WriterCall.equivalent_flush_append_empty

theorem Ordered.writerMove [Sink σ] (ho : Ordered c h) (hc : Coordinated c h) {sh : CaptureShared}
    {t : WriterThread σ} {written : List WriterCall}
    (hm : WriterMoves c.session.shared c.session.thread.writer c.session.thread.bytes
      c.session.thread.phase sh t written) (hok : ¬ t.Failed) :
    Ordered ⟨{ c.session with shared := sh, thread := t }, c.producer⟩
      { h with written := h.written ++ written } := by
  obtain ⟨⟨shared, ⟨phase, writer, bytes⟩, joined, queued, log⟩, producer⟩ := c
  have hp : producer.Agrees shared h.Open := hc.producer
  have ht : phase.Agrees shared := hc.thread
  dsimp only at hm
  cases hm with
  | advance hring hsound hcap =>
    refine ho.look ?_ rfl
    simp only [pending, unwritten, WriterPhase.inHand, hring, ByteArray.empty_append]
    rfl
  | append hcall =>
    rename_i batch v
    have hcut := (WriterCall.equivalent_append_append batch
      (sh.ring.contents ++ producer.rest)).append
      (Equivalent.refl (producer.openFlush sh.flushed))
    refine ho.step ?_ (List.append_nil _).symm
    rw [List.append_nil]
    simp only [pending, unwritten, WriterPhase.inHand, ByteArray.empty_append]
    rw [ByteArray.append_assoc]
    exact hcut
  | flush hlt hcall =>
    rename_i stop requested v
    obtain ⟨-, hle, hempty⟩ := ht
    -- the request is the newest one, and the producer that waits for it has nothing left to queue
    have hlast : requested = sh.flushRequested :=
      Nat.le_antisymm hle (Nat.le_trans hp.open_flush hlt)
    subst hlast
    obtain ⟨hrest, hopen⟩ := hp.of_open hlt
    have hbefore : pending ⟨⟨sh, ⟨.serveFlush stop sh.flushRequested, writer, bytes⟩, joined,
        queued, log⟩, producer⟩ = [.append .empty, .flush] := by
      simp [pending, unwritten, served, WriterPhase.inHand, hempty hlt, hrest, hopen, hlt]
    have hafter : pending ⟨⟨sh, ⟨.acknowledge stop sh.flushRequested, v, bytes⟩, joined, queued,
        log⟩, producer⟩ = [.append .empty] := by
      simp [pending, unwritten, served, WriterPhase.inHand, hempty hlt, hrest, hopen]
    refine ho.step ?_ rfl
    rw [hbefore, hafter]
    exact WriterCall.equivalent_flush_append_empty
  | flushLast | close => exact ho.flushOnce hc ht rfl rfl rfl
  | fail _ hfailed => exact absurd hfailed hok
  | _ => exact ho.look rfl rfl

theorem Ordered.producerMove (ho : Ordered c h) (hc : Coordinated c h) {c' : Capture σ}
    {queued : ByteArray} (hm : ProducerMoves c.session c.producer c' queued) :
    Ordered c' { h with queued := h.queued ++ queued } := by
  unfold Ordered
  rw [pending_producerMove hc hm, thread_of_moves hm]
  exact ho

theorem pending_start (hret : c.reply?.isSome) (call : CaptureCall) :
    Equivalent (start c.session call).pending (c.pending ++ call.plain) := by
  obtain ⟨s, phase⟩ := c
  cases phase with
  | returned reply =>
    cases call with
    | write data =>
      simp only [start, pending, unwritten, ProducerPhase.rest, ProducerPhase.openFlush,
        CaptureCall.plain, ByteArray.append_empty, ByteArray.extract_zero_size]
      exact (WriterCall.equivalent_append_append _ data).symm
    | flush | finish => exact .refl _
    | drop =>
      change Equivalent (pending (if s.joined then _ else _)) _
      split <;> exact .refl _
  | _ => cases hret

theorem Ordered.call (ho : Ordered c h) (hc : Coordinated c h) (hret : c.reply?.isSome)
    (hopen : h.Open) (call : CaptureCall) :
    Ordered (start c.session call) { h with calls := h.calls ++ [call] } := by
  unfold Ordered at ho ⊢
  rw [hc.closing_eq_nil (hc.stop_eq_false hret hopen), List.append_nil] at ho
  have hstart : Equivalent (h.written ++ (start c.session call).pending)
      (h.written ++ (c.pending ++ call.plain)) :=
    (Equivalent.refl h.written).append (pending_start hret call)
  have hcall : Equivalent (h.written ++ c.pending ++ call.plain) (h.plain ++ call.plain) :=
    ho.append (.refl call.plain)
  rw [List.append_assoc] at hcall
  rw [CaptureHistory.plain_call, session_start, hc.closing_eq_nil (hc.stop_eq_false hret hopen),
    List.append_nil]
  exact hstart.trans hcall

theorem invariant_ordered [Sink σ] {w : Writer σ} {capacity : Nat} {s : CaptureSession σ} {sink : σ}
    (hstart : CaptureSession.start w capacity = (.ok s, sink)) :
    Invariant capacity s fun c h => Coordinated c h ∧ Ordered c h where
  idle := by
    refine ⟨(invariant_coordinated hstart).idle, ?_⟩
    obtain ⟨-, ring, hring, rfl⟩ := CaptureSession.start_eq_ok hstart
    have hempty : ring.contents = .empty := (Ring.queues_new hring).2.contents_eq
    have hpending : pending ⟨⟨⟨ring, false, 0, 0⟩, .start w, false, 0, #[]⟩, .returned (.ok none)⟩ =
        [.append .empty] := by
      simp [pending, unwritten, hempty, WriterThread.start, WriterPhase.inHand, ProducerPhase.rest,
        ProducerPhase.openFlush]
    unfold Ordered
    rw [hpending]
    exact WriterCall.equivalent_append_empty
  call _ hc hret hopen call := ⟨hc.1.call hret hopen call, hc.2.call hc.1 hret hopen call⟩
  producer _ hc hm := ⟨hc.1.producerMove hm, hc.2.producerMove hc.1 hm⟩
  writer _ hc hm hok := ⟨hc.1.writerMove hm hok, hc.2.writerMove hc.1 hm hok⟩

end Capture

end TraceCapture
