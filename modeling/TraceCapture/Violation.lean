set_option autoImplicit false

/-!
# Broken contracts

A call whose caller broke its contract does not answer: it panics, and the panic has a cause. The
cause is one of the contracts of this library, so that a statement about a panic can name which one.
-/

namespace TraceCapture

/-- How a build treats its contracts. A checked build tests them and panics on a broken one; an
unchecked build lets 64-bit arithmetic wrap and goes on. -/
inductive Profile where
  | checked
  | unchecked
  deriving DecidableEq, Repr

inductive Violation where
  | additionOverflow
  | subtractionOverflow
  | multiplicationOverflow
  | capacityOverflow
  | ringWithoutCapacity
  | ringFull (requested free : Nat)
  | readAcrossEnd (size start capacity : Nat)
  | peekTooLarge
  | advanceTooLarge
  | readFromWriter
  | writeToReader
  | addressOutsideHeap
  | handlersInstalledTwice
  | callbackRegisteredTwice
  | sinkPanicked
  deriving DecidableEq, Repr

namespace Violation

def message : Violation → String
  | additionOverflow => "attempt to add with overflow"
  | subtractionOverflow => "attempt to subtract with overflow"
  | multiplicationOverflow => "attempt to multiply with overflow"
  | capacityOverflow => "capacity overflow"
  | ringWithoutCapacity => "RingBuffer capacity must be > 0"
  | ringFull requested free => s!"write of {requested} bytes exceeds free space ({free} bytes)"
  | readAcrossEnd size start capacity =>
      s!"read of {size} bytes at index {start} crosses the end of a {capacity}-byte ring"
  | peekTooLarge => "peek larger than the ring"
  | advanceTooLarge => "advance larger than the ring"
  | readFromWriter => "read operation on a trace file opened for writing"
  | writeToReader => "write operation on a trace file opened for reading"
  | addressOutsideHeap => "assertion failed: heap.contains(addr)"
  | handlersInstalledTwice => "crash handlers installed twice"
  | callbackRegisteredTwice => "crash callback registered twice"
  | sinkPanicked => "sink panicked"

end Violation

/-- What a call comes to: a value, an error of its own kind, or a panic. -/
inductive Outcome (ε α : Type) where
  | ok (value : α)
  | error (cause : ε)
  | panicked (cause : Violation)
  deriving DecidableEq, Repr

namespace Outcome

variable {ε δ α β : Type}

def map (f : α → β) : Outcome ε α → Outcome ε β
  | ok a => ok (f a)
  | error e => error e
  | panicked v => panicked v

def mapError (f : ε → δ) : Outcome ε α → Outcome δ α
  | ok a => ok a
  | error e => error (f e)
  | panicked v => panicked v

@[simp] theorem map_eq_panicked {f : α → β} {o : Outcome ε α} {v : Violation} :
    o.map f = panicked v ↔ o = panicked v := by
  cases o <;> simp [map]

def isOk : Outcome ε α → Bool
  | ok _ => true
  | _ => false

end Outcome

end TraceCapture
