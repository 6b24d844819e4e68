import TraceCapture.Bytes
import TraceCapture.Word

set_option autoImplicit false

/-!
# The byte ring

A bounded queue of bytes between the thread that captures and the thread that writes. Bytes are
written behind the write cursor, around the physical end if need be, and read at the read cursor.
Equal cursors mean an empty ring: a write that fills the ring exactly makes it look empty, so a
producer keeps at least one byte of slack.
-/

namespace TraceCapture

structure Ring where
  storage : ByteArray
  /-- Where the next byte is written. -/
  write : Nat
  /-- Where the next byte is read. -/
  read : Nat

structure RingOverflow where
  requested : Nat
  free : Nat
  deriving DecidableEq, Repr

def RingOverflow.message (e : RingOverflow) : String :=
  (Violation.ringFull e.requested e.free).message

namespace Ring

def new (capacity : Nat) : Except Violation Ring :=
  if capacity = 0 then .error .ringWithoutCapacity
  else (Bytes.reserve capacity).map fun () => ⟨Bytes.zeros capacity, 0, 0⟩

def capacity (r : Ring) : Nat := r.storage.size

def sizeToWrite (r : Ring) : Nat :=
  if r.read < r.write then r.capacity - (r.write - r.read)
  else if r.write = r.read then r.capacity
  else r.read - r.write

def sizeToRead (r : Ring) : Nat := r.capacity - r.sizeToWrite

def isEmpty (r : Ring) : Bool := r.sizeToRead == 0

def slices (r : Ring) (n : Nat) : ByteArray × ByteArray :=
  let tail := r.capacity - r.read
  if tail < n then (r.storage.extract r.read r.capacity, r.storage.extract 0 (n - tail))
  else (r.storage.extract r.read (r.read + n), .empty)

def contents (r : Ring) : ByteArray :=
  let (a, b) := r.slices r.sizeToRead
  a ++ b

/-- Copies `data` behind the write cursor, around the physical end if need be. -/
def put (r : Ring) (data : ByteArray) : Ring :=
  let tail := r.capacity - r.write
  if tail < data.size then
    let storage := Bytes.overwrite r.storage r.write (data.extract 0 tail)
    { r with
      storage := Bytes.overwrite storage 0 (data.extract tail data.size)
      write := data.size - tail }
  else
    { r with
      storage := Bytes.overwrite r.storage r.write data
      write := (r.write + data.size) % r.capacity }

def push (p : Profile) (r : Ring) (data : ByteArray) : Outcome RingOverflow Unit × Ring :=
  if r.sizeToWrite < data.size then
    match p with
    | .checked => (.panicked (.ringFull data.size r.sizeToWrite), r)
    | .unchecked => (.error ⟨data.size, r.sizeToWrite⟩, r)
  else (.ok (), r.put data)

def take (r : Ring) (n : Nat) : Except Violation ByteArray × Ring :=
  let stop := r.read + n
  if r.capacity < stop then (.error (.readAcrossEnd n r.read r.capacity), r)
  else (.ok (r.storage.extract r.read stop), { r with read := stop % r.capacity })

def overflows (p : Profile) (r : Ring) (n : Nat) : Except Violation Bool :=
  (Word.add p r.read n).map fun stop => decide (r.capacity < stop)

def overflowsBy (p : Profile) (r : Ring) (n : Nat) : Except Violation Nat :=
  (Word.add p r.read n).map fun stop => stop - r.capacity

def peek (r : Ring) (n : Nat) : Except Violation (ByteArray × ByteArray) :=
  if r.capacity < n then .error .peekTooLarge else .ok (r.slices n)

def advance (r : Ring) (n : Nat) : Except Violation Unit × Ring :=
  if r.capacity < n then (.error .advanceTooLarge, r)
  else
    let next := r.read + n
    (.ok (), { r with
      read := if r.capacity < next then next - r.capacity else next % r.capacity })

def drain (r : Ring) (n : Nat) : Except Violation ByteArray × Ring :=
  match r.peek n with
  | .error v => (.error v, r)
  | .ok (a, b) =>
    let (moved, r) := r.advance n
    (moved.map fun _ => a ++ b, r)

def reset (r : Ring) : Ring := { r with write := 0, read := 0 }

def describe (r : Ring) : String :=
  s!"RingBuffer \x7b capacity: {r.capacity}, write: {r.write}, read: {r.read} \x7d"

def describeLines (r : Ring) : String :=
  s!"RingBuffer \x7b\n    capacity: {r.capacity},\n    write: {r.write},\n    read: {r.read},\n\x7d"

end Ring

end TraceCapture
