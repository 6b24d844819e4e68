import TraceCapture.Capture.WriterThread
import TraceCapture.Stream.Disk

set_option autoImplicit false

/-!
# Capture sessions

A session belongs to the producing thread. It queues bytes in the ring, asks for flushes, and ends
the writer thread. A call of the producer is a machine of atomic steps too, and the two machines may
be interleaved in any way: `Capture.run` follows a given schedule.
-/

namespace TraceCapture

structure CaptureSession (σ : Type) where
  shared : CaptureShared
  thread : WriterThread σ
  /-- Whether the session has taken notice of how the thread ended. -/
  joined : Bool
  queued : Nat
  log : Array CaptureEvent

namespace CaptureSession

variable {σ : Type}

/-- Starts the writer thread over a ring of the given capacity. If that is too small or too large,
the trace writer is dropped; answers its sink too, as it is then. -/
def start [Sink σ] (writer : Writer σ) (ringCapacity : Nat) :
    Outcome CaptureError (CaptureSession σ) × σ :=
  if ringCapacity < minRingCapacity then
    match writer.drop with
    | (.panicked v, w) => (.panicked v, w.inner)
    | (_, w) => (.error (.config (.ringCapacity ringCapacity)), w.inner)
  else
    match Ring.new ringCapacity with
    | .error v => (.panicked v, writer.drop.2.inner)
    | .ok ring =>
      (.ok ⟨⟨ring, false, 0, 0⟩, .start writer, false, 0, #[]⟩, writer.inner)

/-- Creates a trace file and starts a session that fills it. Nothing on the disk changes if the
configuration is out of range. -/
def create (p : Profile) (d : Disk) (path : DiskPath) (config : CaptureConfig) :
    Outcome CaptureError (CaptureSession DiskFile) × Disk :=
  match config.validate with
  | .error e => (.error (.config e), d)
  | .ok chunkSize =>
    match DiskFile.forWriting d path with
    | .error e => (.error (.file (.io e)), d)
    | .ok file =>
      match Writer.start file chunkSize.val (.lz4 p) with
      | (.ok writer, _) =>
        let (session, file) := start writer config.ringCapacity
        (session.map fun s => { s with log := #[.started config] }, file.disk)
      | (.error e, file) => (.error (.file e), file.disk)
      | (.panicked v, file) => (.panicked v, file.disk)

/-- Takes notice of how the thread ended; none as long as it has not. A second time finds the thread
gone. -/
def join (s : CaptureSession σ) : Option (Except CaptureError CaptureStats × CaptureSession σ) :=
  if s.joined then some (.error .writerStopped, s)
  else
    s.thread.result?.map fun r =>
      let s := { s with joined := true }
      match r with
      | .ok stats => (.ok stats, s)
      | .error e => (.error (.file e), s)
      | .panicked _ => (.error .writerPanicked, s)

def threadFault (s : CaptureSession σ) : Option (CaptureError × CaptureSession σ) :=
  s.join.map fun (r, s) =>
    match r with
    | .ok _ => (.writerStopped, s)
    | .error e => (e, s)

def pieceSize (s : CaptureSession σ) : Nat := s.shared.ring.capacity - 1

end CaptureSession

inductive CaptureCall where
  | write (data : ByteArray)
  | flush
  | finish
  | drop

abbrev CaptureReply := Outcome CaptureError (Option CaptureStats)

inductive ProducerPhase where
  | findRoom (data : ByteArray) (i : Nat)
  /-- There was no room: see whether the thread is alive. -/
  | stalled (data : ByteArray) (i : Nat)
  | queue (data : ByteArray) (i : Nat)
  | requestFlush
  | awaitFlush (ticket : Nat)
  /-- The flush is not done: see whether the thread is alive. -/
  | waiting (ticket : Nat)
  | requestStop (quiet : Bool)
  | join (quiet : Bool)
  | returned (reply : CaptureReply)

structure Capture (σ : Type) where
  session : CaptureSession σ
  producer : ProducerPhase

inductive CaptureParty where
  | producer
  | writer
  deriving DecidableEq, Repr

namespace Capture

variable {σ : Type}

/-- The start of a call. A session that has already lost its thread is dropped without a word. -/
def start (s : CaptureSession σ) : CaptureCall → Capture σ
  | .write data => ⟨s, .findRoom data 0⟩
  | .flush => ⟨s, .requestFlush⟩
  | .finish => ⟨s, .requestStop false⟩
  | .drop => if s.joined then ⟨s, .returned (.ok none)⟩ else ⟨s, .requestStop true⟩

def pieceEnd (s : CaptureSession σ) (data : ByteArray) (i : Nat) : Nat :=
  i + min (data.size - i) s.pieceSize

def checkThread (s : CaptureSession σ) (next : ProducerPhase) : Capture σ :=
  match s.threadFault with
  | some (e, s) => ⟨s, .returned (.error e)⟩
  | none => ⟨s, next⟩

def close (s : CaptureSession σ) (quiet : Bool) (r : Except CaptureError CaptureStats) :
    Capture σ :=
  let record (e : CaptureEvent) : CaptureSession σ := { s with log := s.log.push e }
  match quiet, r with
  | false, .ok stats => ⟨record (.finished stats), .returned (.ok (some stats))⟩
  | false, .error e => ⟨s, .returned (.error e)⟩
  | true, .ok _ => ⟨s, .returned (.ok none)⟩
  | true, .error e => ⟨record (.failedOnShutdown e), .returned (.ok none)⟩

def producerStep (p : Profile) (c : Capture σ) : Capture σ :=
  let ⟨s, phase⟩ := c
  match phase with
  | .findRoom data i =>
      if data.size ≤ i then ⟨s, .returned (.ok none)⟩
      else if s.shared.ring.sizeToWrite ≤ pieceEnd s data i - i then ⟨s, .stalled data i⟩
      else ⟨s, .queue data i⟩
  | .stalled data i => checkThread s (.findRoom data i)
  | .queue data i =>
      let j := pieceEnd s data i
      let ⟨⟨ring, stop, flushRequested, flushed⟩, thread, joined, queued, log⟩ := s
      let (pushed, ring) := ring.push p (data.extract i j)
      let shared : CaptureShared := ⟨ring, stop, flushRequested, flushed⟩
      match pushed with
      | .ok () => ⟨⟨shared, thread, joined, queued + (j - i), log⟩, .findRoom data j⟩
      | .error e => ⟨⟨shared, thread, joined, queued, log⟩, .returned (.error (.ring e))⟩
      | .panicked v => ⟨⟨shared, thread, joined, queued, log⟩, .returned (.panicked v)⟩
  | .requestFlush =>
      let ticket := s.shared.flushRequested + 1
      ⟨{ s with shared := { s.shared with flushRequested := ticket } }, .awaitFlush ticket⟩
  | .awaitFlush ticket =>
      if s.shared.flushed < ticket then ⟨s, .waiting ticket⟩ else ⟨s, .returned (.ok none)⟩
  | .waiting ticket => checkThread s (.awaitFlush ticket)
  | .requestStop quiet => ⟨{ s with shared := { s.shared with stop := true } }, .join quiet⟩
  | .join quiet =>
      match s.join with
      | some (r, s) => close s quiet r
      | none => ⟨s, .join quiet⟩
  | .returned reply => ⟨s, .returned reply⟩

variable [Sink σ]

def writerStep (c : Capture σ) : Capture σ :=
  let ⟨⟨shared, thread, joined, queued, log⟩, producer⟩ := c
  let (shared, thread) := thread.step shared
  ⟨⟨shared, thread, joined, queued, log⟩, producer⟩

def step (p : Profile) (c : Capture σ) : CaptureParty → Capture σ
  | .producer => c.producerStep p
  | .writer => c.writerStep

def run (p : Profile) (c : Capture σ) (schedule : List CaptureParty) : Capture σ :=
  schedule.foldl (step p) c

def reply? (c : Capture σ) : Option CaptureReply :=
  match c.producer with
  | .returned r => some r
  | _ => none

end Capture

end TraceCapture
