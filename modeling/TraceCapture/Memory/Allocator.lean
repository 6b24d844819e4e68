set_option autoImplicit false

namespace TraceCapture

def blockSize : Nat := 1024

class BlockAllocator (α : Type) where
  /-- The address of a fresh block, unless the allocator is exhausted. -/
  allocate : α → Option Nat × α
  release : α → Nat → α
  programBreak : α → Nat

structure ScriptedAllocator where
  script : List Nat
  released : Array Nat
  allocations : Nat
  programBreak : Nat
  deriving DecidableEq, Repr

namespace ScriptedAllocator

def new (programBreak : Nat) : ScriptedAllocator := ⟨[], #[], 0, programBreak⟩

def allocate (a : ScriptedAllocator) : Option Nat × ScriptedAllocator :=
  match a.script with
  | [] => (none, a)
  | block :: script => (some block, { a with script, allocations := a.allocations + 1 })

def release (a : ScriptedAllocator) (block : Nat) : ScriptedAllocator :=
  { a with released := a.released.push block }

def push (a : ScriptedAllocator) (blocks : List Nat) : ScriptedAllocator :=
  { a with script := a.script ++ blocks }

instance : BlockAllocator ScriptedAllocator := ⟨allocate, release, ScriptedAllocator.programBreak⟩

end ScriptedAllocator

end TraceCapture
