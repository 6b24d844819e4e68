import TraceCapture.Capture.Error
import TraceCapture.Trace.Writer

set_option autoImplicit false

/-!
# The writer thread

The thread that empties the ring into the trace file. It is a machine of atomic steps: each step is
one access to what it shares with the producer, or one call on its own trace writer. It loads the
requests before it looks at the ring, so that all bytes queued ahead of a request are seen before
the request is served.
-/

namespace TraceCapture

structure CaptureShared where
  ring : Ring
  stop : Bool
  flushRequested : Nat
  /-- The last flush that is done. -/
  flushed : Nat

inductive WriterPhase where
  | loadStop
  | loadRequest (stop : Bool)
  | lookAtRing (stop : Bool) (requested : Nat)
  | copyOut (n : Nat)
  | advance (batch : ByteArray)
  | append (batch : ByteArray)
  /-- The ring was seen empty: serve the flush that was asked for, if any. -/
  | serveFlush (stop : Bool) (requested : Nat)
  | acknowledge (stop : Bool) (requested : Nat)
  /-- End if that was asked for, or else wait for more. -/
  | pause (stop : Bool)
  | flushLast
  | close (chunks : Nat)
  | ended (result : Outcome TraceError CaptureStats)

structure WriterThread (σ : Type) where
  phase : WriterPhase
  writer : Writer σ
  bytes : Nat

namespace WriterThread

variable {σ : Type}

def start (writer : Writer σ) : WriterThread σ := ⟨.loadStop, writer, 0⟩

def result? (t : WriterThread σ) : Option (Outcome TraceError CaptureStats) :=
  match t.phase with
  | .ended r => some r
  | _ => none

def goto (t : WriterThread σ) (phase : WriterPhase) : WriterThread σ := { t with phase }

variable [Sink σ]

/-- Ends the thread early. Its trace writer is dropped, which tries to flush it; a thread that
panics there has panicked, whatever error it was to end with. -/
def abandon (t : WriterThread σ) (r : Outcome TraceError CaptureStats) : WriterThread σ :=
  let (dropped, writer) := t.writer.drop
  match dropped with
  | .panicked v => { t with phase := .ended (.panicked v), writer }
  | _ => { t with phase := .ended r, writer }

def after (t : WriterThread σ) (called : Outcome TraceError Unit × Writer σ)
    (next : WriterThread σ → WriterThread σ) : WriterThread σ :=
  let t := { t with writer := called.2 }
  match called.1 with
  | .ok () => next t
  | .error e => t.abandon (.error e)
  | .panicked v => t.abandon (.panicked v)

def step (shared : CaptureShared) (t : WriterThread σ) : CaptureShared × WriterThread σ :=
  match t.phase with
  | .loadStop => (shared, t.goto (.loadRequest shared.stop))
  | .loadRequest stop => (shared, t.goto (.lookAtRing stop shared.flushRequested))
  | .lookAtRing stop requested =>
      let n := shared.ring.sizeToRead
      (shared, t.goto (if 0 < n then .copyOut n else .serveFlush stop requested))
  | .copyOut n =>
      match shared.ring.peek n with
      | .ok (head, tail) => (shared, t.goto (.advance (head ++ tail)))
      | .error v => (shared, t.abandon (.panicked v))
  | .advance batch =>
      let ⟨ring, stop, flushRequested, flushed⟩ := shared
      let (moved, ring) := ring.advance batch.size
      let shared := ⟨ring, stop, flushRequested, flushed⟩
      match moved with
      | .ok () => (shared, t.goto (.append batch))
      | .error v => (shared, t.abandon (.panicked v))
  | .append batch =>
      (shared, t.after (t.writer.append batch) fun t =>
        { t with phase := .loadStop, bytes := t.bytes + batch.size })
  | .serveFlush stop requested =>
      if shared.flushed < requested then
        (shared, t.after t.writer.flush (·.goto (.acknowledge stop requested)))
      else (shared, t.goto (.pause stop))
  | .acknowledge stop requested =>
      ({ shared with flushed := requested }, t.goto (.pause stop))
  | .pause stop => (shared, t.goto (if stop then .flushLast else .loadStop))
  | .flushLast =>
      (shared, t.after t.writer.flush fun t => t.goto (.close t.writer.chunksWritten))
  | .close chunks =>
      let (closed, writer) := t.writer.finish
      (shared, { t with
        phase := .ended (closed.map fun () => ⟨t.bytes, chunks⟩)
        writer })
  | .ended _ => (shared, t)

end WriterThread

end TraceCapture
