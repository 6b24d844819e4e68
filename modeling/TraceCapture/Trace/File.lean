import TraceCapture.Stream.Disk
import TraceCapture.Trace.Reader
import TraceCapture.Trace.Writer

set_option autoImplicit false

namespace TraceCapture

inductive TraceFile where
  | reading (r : Reader DiskFile)
  | writing (w : Writer DiskFile)

namespace TraceFile

def mode : TraceFile → Mode
  | reading _ => .read
  | writing _ => .write

def openForReading (p : Profile) (d : Disk) (path : DiskPath) : Outcome TraceError TraceFile :=
  match DiskFile.forReading d path with
  | .error e => .error (.io e)
  | .ok file => (Reader.start file (.lz4 p)).map fun r => reading (r.record (.fileOpened .read))

/-- Opens an empty file for writing. The disk has the empty file also when the chunk size turns out
to be out of range. -/
def openForWriting (p : Profile) (d : Disk) (path : DiskPath) (chunkSize : Nat) :
    Outcome TraceError TraceFile × Disk :=
  match DiskFile.forWriting d path with
  | .error e => (.error (.io e), d)
  | .ok file =>
    let (w, file) := Writer.start file chunkSize (.lz4 p)
    (w.map fun w => writing (w.record (.fileOpened .write)), file.disk)

def openPath (p : Profile) (d : Disk) (path : DiskPath) (mode : Mode) (chunkSize : Nat) :
    Outcome TraceError TraceFile × Disk :=
  match mode with
  | .read => (openForReading p d path, d)
  | .write => openForWriting p d path chunkSize

def disk : TraceFile → Disk
  | reading r => r.inner.disk
  | writing w => w.inner.disk

def onDisk (d : Disk) : TraceFile → TraceFile
  | reading r => reading { r with inner := { r.inner with disk := d } }
  | writing w => writing { w with inner := { w.inner with disk := d } }

def log : TraceFile → Array TraceEvent
  | reading r => r.log
  | writing w => w.log

def clearLog : TraceFile → TraceFile
  | reading r => reading { r with log := #[] }
  | writing w => writing { w with log := #[] }

def onReader {α : Type} (f : TraceFile)
    (call : Reader DiskFile → Outcome TraceError α × Reader DiskFile) :
    Outcome TraceError α × TraceFile :=
  match f with
  | reading r => let (a, r) := call r; (a, reading r)
  | writing _ => (.panicked .readFromWriter, f)

def onWriter {α : Type} (f : TraceFile)
    (call : Writer DiskFile → Outcome TraceError α × Writer DiskFile) :
    Outcome TraceError α × TraceFile :=
  match f with
  | writing w => let (a, w) := call w; (a, writing w)
  | reading _ => (.panicked .writeToReader, f)

def write (f : TraceFile) (data : ByteArray) : Outcome TraceError Unit × TraceFile :=
  f.onWriter (·.append data)

def flush (f : TraceFile) : Outcome TraceError Unit × TraceFile := f.onWriter (·.flush)

def read (f : TraceFile) (n : Nat) : Outcome TraceError ByteArray × TraceFile :=
  f.onReader (·.readBytes n)

def readByte (f : TraceFile) : Outcome TraceError (Option UInt8) × TraceFile :=
  f.onReader (·.readByte)

def skip (f : TraceFile) (n : Nat) : Outcome TraceError Bool × TraceFile := f.onReader (·.skip n)

def percentRead (f : TraceFile) : Outcome TraceError Nat × TraceFile :=
  f.onReader fun r => (.ok r.percentRead, r)

def setCurrentOffset (f : TraceFile) (o : Offset) : Outcome TraceError Unit × TraceFile :=
  f.onReader (·.setCurrentOffset o)

def currentOffset : TraceFile → Offset
  | reading r => r.currentOffset
  | writing w => w.currentOffset

def close : TraceFile → Outcome TraceError Unit × TraceFile
  | reading r => (.ok (), reading r)
  | writing w => let (a, w) := w.finish; (a, writing w)

def drop : TraceFile → Outcome TraceError Unit × TraceFile
  | reading r => (.ok (), reading r)
  | writing w => let (a, w) := w.drop; (a, writing w)

end TraceFile

end TraceCapture
