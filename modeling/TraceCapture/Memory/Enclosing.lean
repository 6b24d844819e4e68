import TraceCapture.Memory.Listing
import TraceCapture.Memory.PinnedBlocks

set_option autoImplicit false

namespace TraceCapture

namespace Region

def continuesWith (r next : Region) : Bool :=
  next.isReadable && !next.isExecutable && next.start == r.stop

def absorb (r : Region) : List Region → Region
  | [] => r
  | next :: rest =>
    if r.continuesWith next then absorb { r with stop := next.stop } rest else r

/-- Whether `r` is the heap: it ends at the program break, rounded up to whole pages. A region that
only ends below the break is not enough, for so does every mapping below the heap. -/
def endsAtBreak (p : Profile) (r : Region) (programBreak pageSize : Nat) : Except Violation Bool :=
  (Word.sub p pageSize 1).map fun mask =>
    let rounded := Word.satAdd programBreak mask &&& Word.complement mask
    decide (r.start ≤ programBreak ∧ programBreak ≤ r.stop ∧ r.stop ≤ rounded)

end Region

namespace PinnedBlocks

variable {α : Type} [BlockAllocator α]

def enclosing (p : Profile) (c : PinnedBlocks α) (regions : List Region)
    (address programBreak pageSize : Nat) : Except Violation (Option Region) × PinnedBlocks α :=
  match regions.dropWhile fun r => !r.contains address with
  | [] => (.ok none, c)
  | r :: following =>
    if !r.isReadable then (.ok none, c)
    else
      match r.endsAtBreak p programBreak pageSize with
      | .error v => (.error v, c)
      | .ok false => (.ok (some (r.absorb following)), c)
      | .ok true =>
        match c.pin p r address with
        | (.error v, c) => (.error v, c)
        | (.ok (some stretch), c) => (.ok (some stretch), c)
        | (.ok none, c) => (.ok (some (r.absorb following)), c)

end PinnedBlocks

end TraceCapture
