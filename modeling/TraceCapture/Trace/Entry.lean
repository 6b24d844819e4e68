import TraceCapture.Bytes
import TraceCapture.Trace.Format

set_option autoImplicit false

namespace TraceCapture

structure Entry where
  start : Nat
  block : ByteArray

namespace Entry

def stop (e : Entry) : Nat := e.start + lengthSize + e.block.size

def at? (file : ByteArray) (i : Nat) : Option Entry :=
  match Bytes.toU32? (file.extract i (i + lengthSize)) with
  | none => none
  | some n =>
    if n = 0 ∨ file.size < i + lengthSize + n then none
    else some ⟨i, file.extract (i + lengthSize) (i + lengthSize + n)⟩

theorem stop_le_size {file : ByteArray} {i : Nat} {e : Entry} (h : at? file i = some e) :
    i < e.stop ∧ e.stop ≤ file.size := by
  unfold at? at h
  split at h
  · cases h
  · split at h
    · cases h
    · cases h
      simp only [stop, lengthSize, ByteArray.size_extract] at *
      omega

def listFrom (file : ByteArray) (i : Nat) : List Entry :=
  match _h : at? file i with
  | none => []
  | some e => e :: listFrom file e.stop
termination_by file.size - i
decreasing_by
  have := stop_le_size _h
  omega

def list (file : ByteArray) : List Entry := listFrom file magic.size

end Entry

end TraceCapture
