import TraceCapture.Capture.Schedule
import TraceCapture.Proofs.Ring.Fifo
import TraceCapture.Proofs.Writer.Append

set_option autoImplicit false

namespace TraceCapture

/-- What a call comes to on a trace writer that no ring and no thread stands in front of. -/
def CaptureCall.plain : CaptureCall → List WriterCall
  | write data => [.append data]
  | flush => [.flush]
  | finish | drop => []

def CaptureCall.closes : CaptureCall → Bool
  | write _ | flush => false
  | finish | drop => true

structure CaptureHistory where
  /-- The calls of the program, oldest first. -/
  calls : List CaptureCall
  /-- The bytes that are queued in the ring so far. -/
  queued : ByteArray
  /-- The calls on the trace writer that have succeeded, oldest first. -/
  written : List WriterCall

def ProducerPhase.rest : ProducerPhase → ByteArray
  | findRoom data i | stalled data i | queue data i => data.extract i data.size
  | _ => .empty

def WriterPhase.inHand : WriterPhase → ByteArray
  | append batch => batch
  | _ => .empty

def WriterThread.Failed {σ : Type} (t : WriterThread σ) : Prop :=
  ∃ r, t.phase = .ended r ∧ ∀ stats, r ≠ .ok stats

namespace CaptureHistory

def empty : CaptureHistory := ⟨[], .empty, []⟩

def plain (h : CaptureHistory) : List WriterCall := h.calls.flatMap CaptureCall.plain

def appended (h : CaptureHistory) : ByteArray := WriterCall.bytes h.written

def Open (h : CaptureHistory) : Prop := ∀ call ∈ h.calls, call.closes = false

end CaptureHistory

namespace Capture

variable {σ : Type}

def Failed (c : Capture σ) : Prop := c.session.thread.Failed

def queuedNext (p : Profile) (c : Capture σ) : ByteArray :=
  match c.producer with
  | .queue data i =>
      let piece := data.extract i (pieceEnd c.session data i)
      if (c.session.shared.ring.push p piece).1.isOk then piece else .empty
  | _ => .empty

def nextCall? (c : Capture σ) : Option WriterCall :=
  match c.session.thread.phase with
  | .append batch => some (.append batch)
  | .serveFlush _ requested => if c.session.shared.flushed < requested then some .flush else none
  | .flushLast | .close _ => some .flush
  | _ => none

variable [Sink σ]

theorem run_append {p : Profile} (c : Capture σ) (first second : List CaptureParty) :
    c.run p (first ++ second) = (c.run p first).run p second :=
  List.foldl_append

def writtenNext (c : Capture σ) : List WriterCall :=
  match c.nextCall? with
  | some call => if (c.session.thread.writer.perform call).1.isOk then [call] else []
  | none => []

/-- The states that a session can come to, and their histories. A call is made when the one before
has returned, and none is made after one that ends the session. -/
inductive Reaches (p : Profile) (s : CaptureSession σ) : Capture σ → CaptureHistory → Prop where
  | idle : Reaches p s ⟨s, .returned (.ok none)⟩ .empty
  | call {c : Capture σ} {h : CaptureHistory} (hc : Reaches p s c h) (hret : c.reply?.isSome)
      (hopen : h.Open) (call : CaptureCall) :
      Reaches p s (start c.session call) { h with calls := h.calls ++ [call] }
  | producer {c : Capture σ} {h : CaptureHistory} (hc : Reaches p s c h) :
      Reaches p s (c.producerStep p) { h with queued := h.queued ++ c.queuedNext p }
  | writer {c : Capture σ} {h : CaptureHistory} (hc : Reaches p s c h) :
      Reaches p s c.writerStep { h with written := h.written ++ c.writtenNext }

theorem Reaches.run {p : Profile} {s : CaptureSession σ} {c : Capture σ} {h : CaptureHistory}
    (hc : Reaches p s c h) (schedule : List CaptureParty) :
    ∃ h', Reaches p s (c.run p schedule) h' ∧ h'.calls = h.calls := by
  induction schedule generalizing c h with
  | nil => exact ⟨h, hc, rfl⟩
  | cons party schedule ih =>
    cases party with
    | producer =>
      obtain ⟨h', hr, hcalls⟩ := ih hc.producer
      exact ⟨h', hr, hcalls⟩
    | writer =>
      obtain ⟨h', hr, hcalls⟩ := ih hc.writer
      exact ⟨h', hr, hcalls⟩

end Capture

end TraceCapture
