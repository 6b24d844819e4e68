import TraceCapture.Word

set_option autoImplicit false

namespace TraceCapture

inductive Right where
  | read
  | write
  | execute
  | shared
  deriving DecidableEq, Repr

namespace Right

def all : List Right := [read, write, execute, shared]

def mask : Right → UInt8
  | read => 1
  | write => 2
  | execute => 4
  | shared => 8

def name : Right → String
  | read => "READ"
  | write => "WRITE"
  | execute => "EXECUTE"
  | shared => "SHARED"

end Right

structure Protection where
  bits : UInt8
  deriving DecidableEq, Repr

namespace Protection

def knownBits : UInt8 := 15

def has (p : Protection) (r : Right) : Bool := p.bits &&& r.mask != 0

def ofRights (rs : List Right) : Protection := ⟨rs.foldl (fun bits r => bits ||| r.mask) 0⟩

def isKnown (p : Protection) : Bool := p.bits &&& knownBits == p.bits

def describe (p : Protection) : String :=
  let extra := p.bits &&& (255 - knownBits)
  let names := (Right.all.filter p.has).map Right.name
  let parts := if extra = 0 then names else names ++ [Word.hex extra.toNat]
  let text := if parts.isEmpty then Word.hex 0 else " | ".intercalate parts
  s!"Protection({text})"

end Protection

structure Region where
  start : Nat
  stop : Nat
  protection : Protection
  deriving DecidableEq, Repr

namespace Region

def contains (r : Region) (address : Nat) : Bool := r.start ≤ address && address < r.stop

/-- The number of addresses; a region that stops before its start has none. -/
def length (r : Region) : Nat := r.stop - r.start

def isEmpty (r : Region) : Bool := r.length == 0

def isReadable (r : Region) : Bool := r.protection.has .read

def isWritable (r : Region) : Bool := r.protection.has .write

def isExecutable (r : Region) : Bool := r.protection.has .execute

def render (r : Region) : String :=
  let letter (right : Right) (set clear : Char) := if r.protection.has right then set else clear
  let rights := [letter .read 'r' '-', letter .write 'w' '-', letter .execute 'x' '-',
    letter .shared 's' 'p']
  s!"{Word.hex r.start}-{Word.hex r.stop} {String.ofList rights}"

def describe (r : Region) : String :=
  s!"MemoryRegion \x7b start: {r.start}, stop: {r.stop}, " ++
    s!"protection: {r.protection.describe} \x7d"

theorem contains_iff {r : Region} {address : Nat} :
    r.contains address = true ↔ r.start ≤ address ∧ address < r.stop := by
  simp [contains]

end Region

end TraceCapture
