import TraceCapture.Memory.Enclosing

set_option autoImplicit false

namespace TraceCapture

class RegionResolver (ρ : Type) where
  resolve : ρ → Nat → Option Region × ρ

namespace RegionResolver

variable {ρ : Type} [RegionResolver ρ]

def query (r : ρ) (address : Nat) : Option Region × ρ :=
  let (found, r) := resolve r address
  (found.filter Region.isReadable, r)

end RegionResolver

structure FixedRegions where
  regions : List Region
  resolutions : Nat

instance : RegionResolver FixedRegions where
  resolve r address :=
    (r.regions.find? (·.contains address), { r with resolutions := r.resolutions + 1 })

/-- A resolver over the memory of a process: the mapped regions, the program break, and the blocks
pinned in the heap. -/
structure MappedMemory (α : Type) where
  regions : List Region
  programBreak : Nat
  pageSize : Nat
  pinned : PinnedBlocks α

instance {α : Type} [BlockAllocator α] : RegionResolver (MappedMemory α) where
  resolve m address :=
    let (found, pinned) :=
      m.pinned.enclosing .unchecked m.regions address m.programBreak m.pageSize
    (found.toOption.join, { m with pinned })

end TraceCapture
