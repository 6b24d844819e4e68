import Mathlib.Logic.Relation
import TraceCapture.Proofs.Memory.Enclosing

set_option autoImplicit false

namespace TraceCapture

inductive AllocatorCall where
  /-- A block was handed out, with the program break right behind that. -/
  | allocated (block programBreak : Nat)
  | exhausted
  | released (block : Nat)
  deriving DecidableEq, Repr

namespace AllocatorCall

def isAllocation : AllocatorCall → Bool
  | allocated _ _ | exhausted => true
  | released _ => false

def handedOut (calls : List AllocatorCall) : List Nat :=
  calls.filterMap fun call =>
    match call with
    | allocated block _ => some block
    | exhausted | released _ => none

def takenBack (calls : List AllocatorCall) : List Nat :=
  calls.filterMap fun call =>
    match call with
    | released block => some block
    | allocated _ _ | exhausted => none

variable {calls more : List AllocatorCall} {blocks : List Nat}

@[simp] theorem handedOut_append : handedOut (calls ++ more) = handedOut calls ++ handedOut more :=
  List.filterMap_append

@[simp] theorem takenBack_append : takenBack (calls ++ more) = takenBack calls ++ takenBack more :=
  List.filterMap_append

@[simp] theorem handedOut_released : handedOut (blocks.map released) = [] := by
  simp [handedOut]

@[simp] theorem takenBack_released : takenBack (blocks.map released) = blocks := by
  simp [takenBack, List.filterMap_map]

@[simp] theorem countP_isAllocation_released :
    (blocks.map released).countP isAllocation = 0 := by
  simp [isAllocation]

end AllocatorCall

structure Audited (α : Type) where
  inner : α
  calls : List AllocatorCall

namespace Audited

variable {α : Type} [BlockAllocator α]

def allocate (a : Audited α) : Option Nat × Audited α :=
  match BlockAllocator.allocate a.inner with
  | (none, inner) => (none, ⟨inner, a.calls ++ [.exhausted]⟩)
  | (some block, inner) =>
    (some block, ⟨inner, a.calls ++ [.allocated block (BlockAllocator.programBreak inner)]⟩)

instance : BlockAllocator (Audited α) where
  allocate := allocate
  release a block := ⟨BlockAllocator.release a.inner block, a.calls ++ [.released block]⟩
  programBreak a := BlockAllocator.programBreak a.inner

theorem of_allocate_none {a a' : Audited α} (h : BlockAllocator.allocate a = (none, a')) :
    ∃ inner, BlockAllocator.allocate a.inner = (none, inner) ∧
      a' = ⟨inner, a.calls ++ [.exhausted]⟩ := by
  rcases hinner : BlockAllocator.allocate a.inner with ⟨_ | block, inner⟩
  · simp only [BlockAllocator.allocate, allocate, hinner] at h
    cases h
    exact ⟨inner, rfl, rfl⟩
  · simp [BlockAllocator.allocate, allocate, hinner] at h

theorem of_allocate_some {a a' : Audited α} {block : Nat}
    (h : BlockAllocator.allocate a = (some block, a')) :
    ∃ inner, BlockAllocator.allocate a.inner = (some block, inner) ∧
      a' = ⟨inner, a.calls ++ [.allocated block (BlockAllocator.programBreak inner)]⟩ := by
  rcases hinner : BlockAllocator.allocate a.inner with ⟨_ | block', inner⟩
  · simp [BlockAllocator.allocate, allocate, hinner] at h
  · simp only [BlockAllocator.allocate, allocate, hinner] at h
    cases h
    exact ⟨inner, rfl, rfl⟩

theorem foldl_release (blocks : List Nat) (a : Audited α) :
    blocks.foldl BlockAllocator.release a =
      ⟨blocks.foldl BlockAllocator.release a.inner, a.calls ++ blocks.map .released⟩ := by
  induction blocks generalizing a with
  | nil => simp
  | cons block blocks ih =>
    rw [List.foldl_cons, ih]
    simp [BlockAllocator.release]

end Audited

namespace PinnedBlocks

variable {α : Type} {c c' : PinnedBlocks (Audited α)} {heap : Region} {address : Nat}

def unaudited (c : PinnedBlocks (Audited α)) : PinnedBlocks α := ⟨c.allocator.inner, c.blocks⟩

/-- What a query has done to the chain, and the calls it has made: each block that was handed out
has come back or is the one that is added to the chain, behind all others. -/
structure Accounted (c c' : PinnedBlocks (Audited α)) (heap : Region) (found : Option Region)
    (calls : List AllocatorCall) (added : List Nat) : Prop where
  calls_eq : c'.allocator.calls = c.allocator.calls ++ calls
  blocks_eq : c'.blocks.toList = c.blocks.toList ++ added
  added_le : added.length ≤ 1
  allocations_le : calls.countP AllocatorCall.isAllocation ≤ heap.length / blockSize + 16
  balanced : (AllocatorCall.handedOut calls).Perm (AllocatorCall.takenBack calls ++ added)
  below_break : ∀ block ∈ added, ∃ brk, .allocated block brk ∈ calls ∧ blockEnd block ≤ brk
  behind_all : ∀ block ∈ added, ∀ earlier ∈ c.blocks.toList, earlier + blockSize ≤ block
  added_eq_nil : found = none → added = []

theorem accounted_self (c : PinnedBlocks (Audited α)) (heap : Region) (found : Option Region) :
    c.Accounted c heap found [] [] :=
  ⟨by simp, by simp, by simp, Nat.zero_le _, .refl _, nofun, nofun, fun _ => rfl⟩

structure InOrder (c : PinnedBlocks (Audited α)) : Prop where
  ascending : c.blocks.toList.Pairwise fun block later => block + blockSize ≤ later
  below_break : ∀ block ∈ c.blocks.toList,
    ∃ brk, .allocated block brk ∈ c.allocator.calls ∧ blockEnd block ≤ brk

theorem inOrder_new (a : Audited α) : (new a).InOrder := ⟨.nil, nofun⟩

theorem Accounted.inOrder {found : Option Region} {calls : List AllocatorCall} {added : List Nat}
    (h : c.Accounted c' heap found calls added) (hc : c.InOrder) : c'.InOrder := by
  constructor
  · rw [h.blocks_eq, List.pairwise_append]
    refine ⟨hc.ascending, ?_, fun earlier hearlier block hblock =>
      h.behind_all block hblock earlier hearlier⟩
    match added, h.added_le with
    | [], _ => exact .nil
    | [_], _ => exact List.pairwise_singleton _ _
  · rw [h.blocks_eq, h.calls_eq]
    intro block hblock
    obtain hblock | hblock := List.mem_append.mp hblock
    · obtain ⟨brk, hcall, hend⟩ := hc.below_break block hblock
      exact ⟨brk, List.mem_append_left _ hcall, hend⟩
    · obtain ⟨brk, hcall, hend⟩ := h.below_break block hblock
      exact ⟨brk, List.mem_append_right _ hcall, hend⟩

variable [BlockAllocator α]

theorem search_unaudited (n : Nat) (a : Audited α) (rejected : Array Nat) :
    search address n a.inner rejected =
      ((search address n a rejected).1, (search address n a rejected).2.1,
        (search address n a rejected).2.2.inner) := by
  fun_induction search address n a rejected with
  | case1 => rfl
  | case2 n a rejected a' halloc =>
    obtain ⟨inner, hinner, rfl⟩ := Audited.of_allocate_none halloc
    simp only [search, hinner]
  | case3 n a rejected block a' halloc hfits =>
    obtain ⟨inner, hinner, rfl⟩ := Audited.of_allocate_some halloc
    simp only [search, hinner]
    exact if_pos hfits
  | case4 n a rejected block a' halloc hfits ih =>
    obtain ⟨inner, hinner, rfl⟩ := Audited.of_allocate_some halloc
    simp only [search, hinner]
    exact (if_neg hfits).trans ih

theorem extend_unaudited (c : PinnedBlocks (Audited α)) (heap : Region) (address : Nat) :
    c.unaudited.extend heap address =
      ((c.extend heap address).1, (c.extend heap address).2.unaudited) := by
  unfold extend
  rw [unaudited, search_unaudited]
  rcases search address (attempts heap) c.allocator #[] with ⟨_ | block, rejected, a⟩ <;>
    simp [unaudited, ← Array.foldl_toList, Audited.foldl_release]

/-- A record of the calls changes nothing about what is pinned and answered. -/
theorem pin_unaudited (p : Profile) (c : PinnedBlocks (Audited α)) (heap : Region)
    (address : Nat) :
    c.unaudited.pin p heap address =
      ((c.pin p heap address).1, (c.pin p heap address).2.unaudited) := by
  unfold pin
  have hfind : c.unaudited.find? address = c.find? address := rfl
  rw [hfind, extend_unaudited]
  split
  · rfl
  · cases c.find? address with
    | some index => rfl
    | none => rfl

structure SearchCalls (address n : Nat) (calls : List AllocatorCall) (found : Option Nat)
    (rejected : List Nat) : Prop where
  allocations_le : calls.countP AllocatorCall.isAllocation ≤ n
  handedOut_eq : AllocatorCall.handedOut calls = rejected ++ found.toList
  takenBack_eq : AllocatorCall.takenBack calls = []
  fits : ∀ block, found = some block → address < block ∧
    ∃ brk, .allocated block brk ∈ calls ∧ blockEnd block ≤ brk

theorem search_calls (address n : Nat) (a : Audited α) (rejected : Array Nat) :
    ∃ calls more, (search address n a rejected).2.2.calls = a.calls ++ calls ∧
      (search address n a rejected).2.1.toList = rejected.toList ++ more ∧
      SearchCalls address n calls (search address n a rejected).1 more := by
  fun_induction search address n a rejected with
  | case1 a rejected =>
    refine ⟨[], [], by simp, by simp, ⟨Nat.le_refl _, rfl, rfl, ?_⟩⟩
    rintro _ ⟨⟩
  | case2 n a rejected a' halloc =>
    obtain ⟨inner, -, rfl⟩ := Audited.of_allocate_none halloc
    refine ⟨[.exhausted], [], rfl, by simp, ⟨Nat.succ_le_succ n.zero_le, rfl, rfl, ?_⟩⟩
    rintro _ ⟨⟩
  | case3 n a rejected block a' halloc hfits =>
    obtain ⟨inner, -, rfl⟩ := Audited.of_allocate_some halloc
    refine ⟨[.allocated block _], [], rfl, by simp,
      ⟨Nat.succ_le_succ n.zero_le, rfl, rfl, ?_⟩⟩
    rintro _ ⟨⟩
    exact ⟨hfits.1, _, List.mem_singleton_self _, hfits.2⟩
  | case4 n a rejected block a' halloc hfits ih =>
    obtain ⟨inner, -, rfl⟩ := Audited.of_allocate_some halloc
    obtain ⟨calls, more, hcalls, hmore, hsearch⟩ := ih
    refine ⟨.allocated block (BlockAllocator.programBreak inner) :: calls, block :: more, ?_, ?_,
      ⟨?_, ?_, hsearch.takenBack_eq, ?_⟩⟩
    · rw [hcalls, List.append_assoc, List.singleton_append]
    · rw [hmore, Array.toList_push, List.append_assoc, List.singleton_append]
    · rw [List.countP_cons_of_pos rfl]
      exact Nat.succ_le_succ hsearch.allocations_le
    · exact congrArg (block :: ·) hsearch.handedOut_eq
    · intro found hfound
      obtain ⟨habove, brk, hmem, hend⟩ := hsearch.fits found hfound
      exact ⟨habove, brk, List.mem_cons_of_mem _ hmem, hend⟩

theorem extend_accounted (hfind : c.find? address = none) (hmax : address < Word.max)
    {pinned : Bool} (hextend : c.extend heap address = (pinned, c')) {found : Option Region}
    (hfound : found = none → pinned = false) :
    ∃ calls added, c.Accounted c' heap found calls added := by
  obtain ⟨calls, rejected, hcalls, hrejected, hsearch⟩ :=
    search_calls address (attempts heap) c.allocator #[]
  unfold extend at hextend
  rcases hresult : search address (attempts heap) c.allocator #[] with ⟨block, tried, a⟩
  rw [hresult] at hextend hcalls hrejected hsearch
  obtain rfl : tried.toList = rejected := hrejected
  obtain ⟨hallocations, hout, hback, hfits⟩ := hsearch
  have hc' : c'.allocator.calls = a.calls ++ tried.toList.map .released ∧
      c'.blocks.toList = c.blocks.toList ++ block.toList ∧ pinned = block.isSome := by
    simp only [← Array.foldl_toList, Audited.foldl_release] at hextend
    cases block <;> cases hextend <;> simp
  obtain ⟨hcalls', hblocks', hpinned⟩ := hc'
  refine ⟨calls ++ tried.toList.map .released, block.toList, ?_, hblocks', ?_, ?_, ?_, ?_, ?_, ?_⟩
  · rw [hcalls', hcalls, List.append_assoc]
  · cases block <;> simp
  · rw [List.countP_append, AllocatorCall.countP_isAllocation_released]
    exact hallocations
  · simp [hout, hback]
  · intro fresh hfresh
    obtain ⟨-, brk, hcall, hend⟩ := hfits fresh (Option.mem_toList.mp hfresh)
    exact ⟨brk, List.mem_append_left _ hcall, hend⟩
  · intro fresh hfresh earlier hearlier
    -- The search is made only when all pinned blocks end at or below the address.
    obtain ⟨habove, -⟩ := hfits fresh (Option.mem_toList.mp hfresh)
    have hend : ¬address < blockEnd earlier :=
      of_decide_eq_false (Array.findIdx?_eq_none_iff.mp hfind _ (Array.mem_toList_iff.mp hearlier))
    rw [← blockEnd_of_le (Nat.le_of_not_lt hend) hmax]
    omega
  · intro hnone
    rw [hfound hnone] at hpinned
    cases block with
    | none => rfl
    | some block => cases hpinned

theorem pin_accounted (p : Profile) (c : PinnedBlocks (Audited α))
    (hheap : heap.contains address = true) (hstop : heap.stop < Word.size) :
    ∃ found c' calls added, c.pin p heap address = (.ok found, c') ∧
      c.Accounted c' heap found calls added := by
  have hmax : address < Word.max := by
    have hlt := (Region.contains_iff.mp hheap).2
    unfold Word.max
    omega
  unfold pin
  rw [if_neg (by simp [hheap])]
  cases hfind : c.find? address with
  | some index => exact ⟨_, c, [], [], rfl, accounted_self c heap _⟩
  | none =>
    rcases hextend : c.extend heap address with ⟨pinned, c'⟩
    have hfound : (if pinned then some (c'.stretch heap address (c'.blocks.size - 1)) else none) =
        none → pinned = false := by
      cases pinned <;> simp
    obtain ⟨calls, added, haccounted⟩ := extend_accounted hfind hmax hextend hfound
    exact ⟨_, c', calls, added, rfl, haccounted⟩

/-- What may happen next: a query about an address in the heap, or the rest of the program uses the
allocator in a way that is allowed. -/
inductive PinNext (allowed : α → α → Prop) :
    PinnedBlocks (Audited α) → PinnedBlocks (Audited α) → Prop
  | pin (p : Profile) (c : PinnedBlocks (Audited α)) {heap : Region} {address : Nat}
      (hheap : heap.contains address = true) (hstop : heap.stop < Word.size) :
      PinNext allowed c (c.pin p heap address).2
  | elsewhere (c : PinnedBlocks (Audited α)) {inner : α} (h : allowed c.allocator.inner inner) :
      PinNext allowed c ⟨⟨inner, c.allocator.calls⟩, c.blocks⟩

def Pins (allowed : α → α → Prop) :
    PinnedBlocks (Audited α) → PinnedBlocks (Audited α) → Prop :=
  Relation.ReflTransGen (PinNext allowed)

variable {allowed : α → α → Prop}

theorem InOrder.next (hc : c.InOrder) (h : PinNext allowed c c') : c'.InOrder := by
  cases h with
  | pin p _ hheap hstop =>
    obtain ⟨found, c', calls, added, hpin, haccounted⟩ := pin_accounted p c hheap hstop
    rw [hpin]
    exact haccounted.inOrder hc
  | elsewhere => exact ⟨hc.ascending, hc.below_break⟩

theorem PinNext.isPrefix (h : PinNext allowed c c') : c.blocks.toList <+: c'.blocks.toList := by
  cases h with
  | pin p _ hheap hstop =>
    obtain ⟨found, c', calls, added, hpin, haccounted⟩ := pin_accounted p c hheap hstop
    rw [hpin]
    exact ⟨added, haccounted.blocks_eq.symm⟩
  | elsewhere => exact List.prefix_rfl

theorem Pins.inOrder (h : Pins allowed c c') (hc : c.InOrder) : c'.InOrder := by
  induction h with
  | refl => exact hc
  | tail _ hnext ih => exact ih.next hnext

theorem Pins.isPrefix (h : Pins allowed c c') : c.blocks.toList <+: c'.blocks.toList := by
  induction h with
  | refl => exact List.prefix_rfl
  | tail _ hnext ih => exact ih.trans hnext.isPrefix

/-- Nothing is assumed of the allocator, which may change in any way between queries. The blocks
stay in order and below the break, the chain only grows, and a query gives back what it does not
pin. -/
theorem blocks_accounted {a : α} {c : PinnedBlocks (Audited α)}
    (h : Pins (fun _ _ => True) (new ⟨a, []⟩) c) :
    c.InOrder ∧
      (∀ c', Pins (fun _ _ => True) c c' → c.blocks.toList <+: c'.blocks.toList) ∧
      ∀ (p : Profile) (heap : Region) (address : Nat), heap.contains address = true →
        heap.stop < Word.size →
        ∃ found c' calls added, c.pin p heap address = (.ok found, c') ∧
          c.Accounted c' heap found calls added ∧
          c.unaudited.pin p heap address = (.ok found, c'.unaudited) := by
  refine ⟨h.inOrder (inOrder_new _), fun c' hc' => hc'.isPrefix, ?_⟩
  intro p heap address hheap hstop
  obtain ⟨found, c', calls, added, hpin, haccounted⟩ := pin_accounted p c hheap hstop
  refine ⟨found, c', calls, added, hpin, haccounted, ?_⟩
  rw [pin_unaudited, hpin]

/-- Of three blocks the first lies below the address and the second ends above the break: they come
back. Behind the third no block can be had. -/
theorem blocks_accounted_of_three :
    let a := (ScriptedAllocator.new 0x3000).push [0x1400, 0x2e00, 0x2400]
    let heap : Region := ⟨0x1000, 0x3000, .ofRights [.read, .write]⟩
    let c := ((new ⟨a, []⟩).pin .checked heap 0x1800).2
    Pins (fun _ _ => True) (new ⟨a, []⟩) c ∧ c.InOrder ∧ c.blocks = #[0x2400] ∧
      c.allocator.calls = [.allocated 0x1400 0x3000, .allocated 0x2e00 0x3000,
        .allocated 0x2400 0x3000, .released 0x1400, .released 0x2e00] ∧
      ∃ c' calls, c.pin .checked heap 0x2900 = (.ok none, c') ∧
        c.Accounted c' heap none calls [] := by
  intro a heap c
  have hpins : Pins (fun _ _ => True) (new ⟨a, []⟩) c :=
    .single (.pin .checked _ (by decide) (by decide))
  obtain ⟨hinOrder, -, hall⟩ := blocks_accounted hpins
  obtain ⟨found, c', calls, added, hpin, haccounted, -⟩ :=
    hall .checked heap 0x2900 (by decide) (by decide)
  have hnone : (c.pin .checked heap 0x2900).1 = .ok none := by decide +kernel
  rw [hpin] at hnone
  cases hnone
  obtain rfl := haccounted.added_eq_nil rfl
  exact ⟨hpins, hinOrder, by decide +kernel, by decide +kernel, c', calls, hpin, haccounted⟩

end PinnedBlocks

end TraceCapture
