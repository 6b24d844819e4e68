import TraceCapture.Stream.Sink

set_option autoImplicit false

namespace TraceCapture

def LogLine.capacity : Nat := 512

structure LogLine where
  bytes : ByteArray
  size_le : bytes.size ≤ LogLine.capacity

namespace LogLine

def empty : LogLine := ⟨.empty, by decide⟩

def append (line : LogLine) (fragment : ByteArray) : LogLine :=
  ⟨line.bytes ++ fragment.extract 0 (capacity - line.bytes.size), by
    have := line.size_le
    simp only [ByteArray.size_append, ByteArray.size_extract]
    omega⟩

def appendText (line : LogLine) (text : String) : LogLine := line.append text.toUTF8

/-- Hands the message to a sink, which is left as it is after the first failure. -/
def writeTo {σ : Type} [Sink σ] (line : LogLine) (s : σ) : σ := (Sink.writeAll s line.bytes).2

end LogLine

end TraceCapture
