import TraceCapture.Memory.Allocator
import TraceCapture.Memory.Region

set_option autoImplicit false

/-!
# Stable stretches of a growing heap

The heap grows at its end, so the bounds of the mapping around a heap address change from one query
to the next. A block that is pinned above the address does not move: the stretch between two pinned
blocks, or one pinned block itself, has fixed bounds. Blocks are pinned in ascending order and never
released.
-/

namespace TraceCapture

structure PinnedBlocks (α : Type) where
  allocator : α
  /-- The addresses of the pinned blocks, ascending. -/
  blocks : Array Nat

namespace PinnedBlocks

variable {α : Type}

def new (allocator : α) : PinnedBlocks α := ⟨allocator, #[]⟩

def blockEnd (block : Nat) : Nat := Word.satAdd block blockSize

def find? (c : PinnedBlocks α) (address : Nat) : Option Nat :=
  c.blocks.findIdx? fun block => address < blockEnd block

/-- The part of `heap` around `address`, given the index of the first block that ends above it: that
block, or what lies between it and the block before it. -/
def stretch (c : PinnedBlocks α) (heap : Region) (address index : Nat) : Region :=
  let block := c.blocks.getD index 0
  let (start, stop) :=
    if block ≤ address then (block, blockEnd block)
    else if index = 0 then (heap.start, block)
    else (c.blocks.getD (index - 1) 0 + blockSize, block)
  { heap with start := max start heap.start, stop := min stop heap.stop }

/-- How often a fresh block may lie in the wrong place: once for every block that fits into the
heap, and some more. -/
def attempts (heap : Region) : Nat := heap.length / blockSize + 16

variable [BlockAllocator α]

/-- Allocates up to the given number of times, until a block lies above `address` and ends below the
program break. The blocks that do not are collected behind `rejected`. -/
def search (address : Nat) : Nat → α → Array Nat → Option Nat × Array Nat × α
  | 0, a, rejected => (none, rejected, a)
  | n + 1, a, rejected =>
    match BlockAllocator.allocate a with
    | (none, a) => (none, rejected, a)
    | (some block, a) =>
      if address < block ∧ blockEnd block ≤ BlockAllocator.programBreak a then
        (some block, rejected, a)
      else search address n a (rejected.push block)

def extend (c : PinnedBlocks α) (heap : Region) (address : Nat) : Bool × PinnedBlocks α :=
  let (found, rejected, a) := search address (attempts heap) c.allocator #[]
  let allocator := rejected.foldl BlockAllocator.release a
  match found with
  | none => (false, { c with allocator })
  | some block => (true, ⟨allocator, c.blocks.push block⟩)

/-- The stable stretch of `heap` around `address`; none if no block can be pinned above it. -/
def pin (p : Profile) (c : PinnedBlocks α) (heap : Region) (address : Nat) :
    Except Violation (Option Region) × PinnedBlocks α :=
  if p = .checked ∧ heap.contains address = false then (.error .addressOutsideHeap, c)
  else
    match c.find? address with
    | some index => (.ok (some (c.stretch heap address index)), c)
    | none =>
      let (pinned, c) := c.extend heap address
      (.ok (if pinned then some (c.stretch heap address (c.blocks.size - 1)) else none), c)

end PinnedBlocks

end TraceCapture
