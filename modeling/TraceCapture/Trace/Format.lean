import TraceCapture.Trace.Error

set_option autoImplicit false

namespace TraceCapture

def magic : ByteArray := ⟨#[0x61, 0x74]⟩

def defaultChunkSize : Nat := 1024 * 1024

def lengthSize : Nat := 4

/-- A position to go on reading from: where in the file an entry starts, and how many bytes of its
chunk are already read. Offsets are ordered by entry and then by byte. -/
structure Offset where
  chunk : Nat
  within : Nat
  deriving DecidableEq, Repr, Inhabited

namespace Offset

def start : Offset := ⟨0, 0⟩

def compare (a b : Offset) : Ordering :=
  (Ord.compare a.chunk b.chunk).then (Ord.compare a.within b.within)

instance : LT Offset := ⟨fun a b => a.chunk < b.chunk ∨ a.chunk = b.chunk ∧ a.within < b.within⟩

theorem compare_eq_lt {a b : Offset} : compare a b = .lt ↔ a < b := by
  simp only [compare, Ordering.then_eq_lt, Nat.compare_eq_lt, Nat.compare_eq_eq]
  rfl

def toString (o : Offset) : String := s!"{o.chunk}+{o.within}"

def sort (os : List Offset) : List Offset :=
  os.mergeSort fun a b => (compare a b).isLE

end Offset

structure ChunkSize where
  val : Nat
  pos : 0 < val
  le_max : val ≤ maxChunkSize
  deriving DecidableEq, Repr

namespace ChunkSize

def ofNat? (n : Nat) : Except TraceError ChunkSize :=
  if h : 0 < n ∧ n ≤ maxChunkSize then .ok ⟨n, h.1, h.2⟩ else .error (.invalidChunkSize n)

theorem ofNat?_of_le {n : Nat} (hpos : 0 < n) (hmax : n ≤ maxChunkSize) :
    ofNat? n = .ok ⟨n, hpos, hmax⟩ := dif_pos ⟨hpos, hmax⟩

theorem ofNat?_of_not_le {n : Nat} (h : n = 0 ∨ maxChunkSize < n) :
    ofNat? n = .error (.invalidChunkSize n) :=
  dif_neg (by omega)

def default : ChunkSize := ⟨defaultChunkSize, by decide, by decide⟩

end ChunkSize

inductive Mode where
  | read
  | write
  deriving DecidableEq, Repr

end TraceCapture
