set_option autoImplicit false

namespace TraceCapture

/-- The number of a signal. Calls may name numbers that no signal has. -/
abbrev Signal := Int

namespace Signal

def kill : Signal := 9

def pipe : Signal := 13

def terminate : Signal := 15

def stop : Signal := 19

/-- The signals by which threads are managed. Programs can neither raise nor handle them. -/
def reserved : List Signal := [32, 33]

def isValid (sig : Signal) : Bool := 1 ≤ sig && sig ≤ 64 && !reserved.contains sig

def isCatchable (sig : Signal) : Bool := sig.isValid && sig != kill && sig != stop

/-- Whether the signal ends a program that has not chosen otherwise. The others are the four that do
nothing by default and the four that only stop a program until it is continued. -/
def isFatal (sig : Signal) : Bool :=
  sig.isValid && !([17, 18, 23, 28] : List Signal).contains sig && !(19 ≤ sig && sig ≤ 22)

def interceptionLimit : Nat := 16

/-- The signals that the crash handler takes over. A broken pipe is left alone: a write to the log
itself may be what broke. -/
def intercepted : List Signal :=
  ((List.range interceptionLimit).map Int.ofNat).filter fun sig => sig.isCatchable && sig != pipe

def isIntercepted (sig : Signal) : Bool := intercepted.contains sig

end Signal

def crashHandler : UInt64 := 4096

/-- What the system does about a signal, in the form in which a program sets and reads it. The words
0 and 1 stand for actions of the system, all others are addresses of handlers. -/
structure SignalAction where
  handler : UInt64
  /-- The handler takes the details of the signal. -/
  detailed : Bool
  /-- A call that the signal interrupts is started again. -/
  restart : Bool
  deriving DecidableEq, Repr

namespace SignalAction

def byDefault : SignalAction := ⟨0, false, false⟩

def crash : SignalAction := ⟨crashHandler, true, true⟩

def Table : Type := Signal → SignalAction

namespace Table

def initial : Table := fun _ => byDefault

def set (t : Table) (sig : Signal) (a : SignalAction) : Table :=
  fun other => if other = sig then a else t other

@[simp] theorem set_self (t : Table) (sig : Signal) (a : SignalAction) : t.set sig a sig = a := by
  simp [set]

theorem set_of_ne (t : Table) {sig other : Signal} (a : SignalAction) (h : other ≠ sig) :
    t.set sig a other = t other := by
  simp [set, h]

end Table

end SignalAction

inductive Disposition where
  | byDefault
  | ignored
  | plain (handler : UInt64)
  | detailed (handler : UInt64)
  deriving DecidableEq, Repr

namespace Disposition

def ofAction (a : SignalAction) : Disposition :=
  if a.handler = 0 then byDefault
  else if a.handler = 1 then ignored
  else if a.detailed then detailed a.handler
  else plain a.handler

def handler? : Disposition → Option UInt64
  | byDefault | ignored => none
  | plain handler | detailed handler => some handler

end Disposition

/-- A disposition in two words, which can be read without a lock. -/
structure SavedDisposition where
  kind : UInt8
  handler : UInt64
  deriving DecidableEq, Repr

namespace SavedDisposition

def store : Disposition → SavedDisposition
  | .byDefault => ⟨0, 0⟩
  | .ignored => ⟨1, 0⟩
  | .plain handler => ⟨2, handler⟩
  | .detailed handler => ⟨3, handler⟩

def load (s : SavedDisposition) : Disposition :=
  if s.kind = 1 then .ignored
  else if s.kind = 2 ∧ s.handler ≠ 0 then .plain s.handler
  else if s.kind = 3 ∧ s.handler ≠ 0 then .detailed s.handler
  else .byDefault

def new : SavedDisposition := ⟨0, 0⟩

end SavedDisposition

end TraceCapture
