import Mathlib.Data.List.Perm.Subperm
import TraceCapture.Proofs.Memory.StableStretch

set_option autoImplicit false

namespace TraceCapture

/-- The allocator never failed, and the blocks that it handed out are disjoint, start at or above
`floor` and end at or below the program break that it told with them. -/
structure Supplies (floor : Nat) (calls : List AllocatorCall) : Prop where
  never_exhausted : .exhausted ∉ calls
  disjoint : (AllocatorCall.handedOut calls).Pairwise fun block other =>
    block + blockSize ≤ other ∨ other + blockSize ≤ block
  in_heap : ∀ block brk, .allocated block brk ∈ calls → floor ≤ block ∧ block + blockSize ≤ brk

/-- Disjoint blocks lie in different rows of the size of a block, counted from `floor`. -/
theorem length_le_of_disjoint {blocks : List Nat} {floor address : Nat}
    (hdisjoint : blocks.Pairwise fun block other =>
      block + blockSize ≤ other ∨ other + blockSize ≤ block)
    (hin : ∀ block ∈ blocks, floor ≤ block ∧ block ≤ address) :
    blocks.length ≤ (address - floor) / blockSize + 1 := by
  have hrows : (blocks.map fun block => (block - floor) / blockSize).Nodup := by
    rw [List.Nodup, List.pairwise_map]
    refine hdisjoint.imp_of_mem fun {block other} hblock hother hapart => ?_
    have := hin block hblock
    have := hin other hother
    unfold blockSize at hapart ⊢
    omega
  have hrange : blocks.map (fun block => (block - floor) / blockSize) ⊆
      List.range ((address - floor) / blockSize + 1) := by
    intro row hrow
    obtain ⟨block, hblock, rfl⟩ := List.mem_map.mp hrow
    have hle : block - floor ≤ address - floor := Nat.sub_le_sub_right (hin block hblock).2 floor
    exact List.mem_range.mpr (Nat.lt_succ_of_le (Nat.div_le_div_right hle))
  simpa using (List.Nodup.subperm hrows hrange).length_le

namespace PinnedBlocks

variable {α : Type} [BlockAllocator α] {c : PinnedBlocks (Audited α)} {heap : Region}
  {address : Nat}

/-- A search goes on with every block that misses. It ends with one that fits, with a failure of the
allocator, or with no attempts left. -/
theorem search_cases (address n : Nat) (a : Audited α) (rejected : Array Nat) :
    ∃ misses last, (search address n a rejected).2.2.calls = a.calls ++ (misses ++ last) ∧
      (∀ call ∈ misses, ∃ block brk, call = .allocated block brk ∧
        (address < block → brk < blockEnd block)) ∧
      ((search address n a rejected).1 = none ∧ last = [] ∧ misses.length = n ∨
        (search address n a rejected).1 = none ∧ last = [.exhausted] ∨
        ∃ block brk, (search address n a rejected).1 = some block ∧
          last = [.allocated block brk]) := by
  fun_induction search address n a rejected with
  | case1 => exact ⟨[], [], by simp, by simp, .inl ⟨rfl, rfl, rfl⟩⟩
  | case2 n a rejected a' halloc =>
    obtain ⟨inner, -, rfl⟩ := Audited.of_allocate_none halloc
    exact ⟨[], [.exhausted], rfl, by simp, .inr (.inl ⟨rfl, rfl⟩)⟩
  | case3 n a rejected block a' halloc hfits =>
    obtain ⟨inner, -, rfl⟩ := Audited.of_allocate_some halloc
    exact ⟨[], [.allocated block _], rfl, by simp, .inr (.inr ⟨block, _, rfl, rfl⟩)⟩
  | case4 n a rejected block a' halloc hfits ih =>
    obtain ⟨inner, -, rfl⟩ := Audited.of_allocate_some halloc
    obtain ⟨misses, last, hcalls, hmisses, hlast⟩ := ih
    refine ⟨.allocated block (BlockAllocator.programBreak inner) :: misses, last, ?_, ?_, ?_⟩
    · rw [hcalls, List.append_assoc, List.singleton_append, List.cons_append]
    · intro call hcall
      obtain rfl | hcall := List.mem_cons.mp hcall
      · exact ⟨block, _, rfl, fun habove => Nat.lt_of_not_le fun hend => hfits ⟨habove, hend⟩⟩
      · exact hmisses call hcall
    · obtain ⟨hnone, hlast, rfl⟩ | hlast := hlast
      · exact .inl ⟨hnone, hlast, rfl⟩
      · exact .inr hlast

theorem mem_handedOut {calls : List AllocatorCall} {block : Nat} :
    block ∈ AllocatorCall.handedOut calls ↔ ∃ brk, .allocated block brk ∈ calls := by
  rw [AllocatorCall.handedOut, List.mem_filterMap]
  constructor
  · rintro ⟨call, hcall, heq⟩
    cases call with
    | allocated block' brk =>
      cases heq
      exact ⟨brk, hcall⟩
    | exhausted | released => cases heq
  · rintro ⟨brk, hcall⟩
    exact ⟨_, hcall, rfl⟩

/-- Blocks that miss lie between the start of the heap and the address. -/
theorem length_misses_le {misses rest : List AllocatorCall}
    (hsupplies : Supplies heap.start (misses ++ rest))
    (hmisses : ∀ call ∈ misses, ∃ block brk, call = .allocated block brk ∧
      (address < block → brk < blockEnd block)) :
    misses.length ≤ (address - heap.start) / blockSize + 1 := by
  have hlength : (AllocatorCall.handedOut misses).length = misses.length := by
    rw [AllocatorCall.handedOut, List.length_filterMap_eq_countP, List.countP_eq_length]
    intro call hcall
    obtain ⟨block, brk, rfl, -⟩ := hmisses call hcall
    rfl
  have hdisjoint := hsupplies.disjoint
  rw [AllocatorCall.handedOut_append] at hdisjoint
  rw [← hlength]
  refine length_le_of_disjoint (List.pairwise_append.mp hdisjoint).1 fun block hblock => ?_
  obtain ⟨brk, hcall⟩ := mem_handedOut.mp hblock
  obtain ⟨hstart, hend⟩ := hsupplies.in_heap block brk (List.mem_append_left _ hcall)
  obtain ⟨_, _, ⟨⟩, hmiss⟩ := hmisses _ hcall
  have hle := blockEnd_le block
  refine ⟨hstart, Nat.le_of_not_lt fun habove => ?_⟩
  have := hmiss habove
  omega

theorem search_of_supplies (hheap : heap.contains address = true) (a : Audited α) :
    ∃ calls, (search address (attempts heap) a #[]).2.2.calls = a.calls ++ calls ∧
      ∀ rest, Supplies heap.start (calls ++ rest) →
        (search address (attempts heap) a #[]).1.isSome = true ∧
          calls.length ≤ heap.length / blockSize + 2 := by
  obtain ⟨misses, last, hcalls, hmisses, hlast⟩ := search_cases address (attempts heap) a #[]
  refine ⟨misses ++ last, hcalls, fun rest hsupplies => ?_⟩
  have hfew : misses.length ≤ heap.length / blockSize + 1 := by
    rw [List.append_assoc] at hsupplies
    obtain ⟨hstart, hstop⟩ := Region.contains_iff.mp hheap
    refine (length_misses_le hsupplies hmisses).trans (Nat.succ_le_succ (Nat.div_le_div_right ?_))
    unfold Region.length
    omega
  obtain ⟨-, -, hall⟩ | ⟨-, rfl⟩ | ⟨block, brk, hfound, rfl⟩ := hlast
  · unfold attempts at hall
    omega
  · exact absurd (by simp) hsupplies.never_exhausted
  · rw [hfound, List.length_append, List.length_singleton]
    exact ⟨rfl, Nat.succ_le_succ hfew⟩

theorem extend_of_supplies (hheap : heap.contains address = true) (c : PinnedBlocks (Audited α)) :
    ∃ pinned c' calls, c.extend heap address = (pinned, c') ∧
      c'.allocator.calls = c.allocator.calls ++ calls ∧
      (Supplies heap.start calls → pinned = true ∧
        calls.countP AllocatorCall.isAllocation ≤ heap.length / blockSize + 2) := by
  obtain ⟨calls, hcalls, hfound⟩ := search_of_supplies hheap c.allocator
  rcases hsearch : search address (attempts heap) c.allocator #[] with ⟨found, rejected, a⟩
  rw [hsearch] at hcalls hfound
  have hreleased : (rejected.foldl BlockAllocator.release a).calls =
      c.allocator.calls ++ (calls ++ rejected.toList.map .released) := by
    rw [← Array.foldl_toList, Audited.foldl_release, ← List.append_assoc, ← hcalls]
  refine ⟨(c.extend heap address).1, (c.extend heap address).2,
    calls ++ rejected.toList.map .released, rfl, ?_, fun hsupplies => ?_⟩
  · unfold extend
    rw [hsearch]
    cases found <;> exact hreleased
  · obtain ⟨hsome, hfew⟩ := hfound _ hsupplies
    rw [List.countP_append, AllocatorCall.countP_isAllocation_released]
    refine ⟨?_, List.countP_le_length.trans hfew⟩
    unfold extend
    rw [hsearch]
    cases found with
    | none => cases hsome
    | some block => rfl

/-- A query about an address in the heap finds a block if the allocator supplies blocks that could
bound it, in any order, with any blocks pinned before. The calls meant are those made for the
query. -/
theorem attempts_suffice (p : Profile) (c : PinnedBlocks (Audited α))
    (hheap : heap.contains address = true) :
    ∃ found c' calls, c.pin p heap address = (.ok found, c') ∧
      c.unaudited.pin p heap address = (.ok found, c'.unaudited) ∧
      c'.allocator.calls = c.allocator.calls ++ calls ∧
      (Supplies heap.start calls → found.isSome = true ∧
        calls.countP AllocatorCall.isAllocation ≤ heap.length / blockSize + 2) := by
  have hunaudited := pin_unaudited p c heap address
  cases hfind : c.find? address with
  | some index =>
    have hpin := pin_of_find? (p := p) hheap hfind
    rw [hpin] at hunaudited
    exact ⟨_, c, [], hpin, hunaudited, by simp, fun _ => ⟨rfl, Nat.zero_le _⟩⟩
  | none =>
    obtain ⟨pinned, c', calls, hextend, hcalls, hfound⟩ := extend_of_supplies hheap c
    have hpin : c.pin p heap address = (.ok (if pinned then
        some (c'.stretch heap address (c'.blocks.size - 1)) else none), c') := by
      rw [pin, if_neg (by simp [hheap]), hfind, hextend]
    rw [hpin] at hunaudited
    refine ⟨_, c', calls, hpin, hunaudited, hcalls, fun hsupplies => ?_⟩
    obtain ⟨rfl, hfew⟩ := hfound hsupplies
    exact ⟨rfl, hfew⟩

/-- The last address of a heap of two blocks. Both blocks that fit below it come first. -/
theorem attempts_suffice_for_last_address :
    let heap : Region := ⟨0x1000, 0x1800, .ofRights [.read, .write]⟩
    let a := (ScriptedAllocator.new 0x2000).push [0x1400, 0x1000, 0x1c00]
    let c : PinnedBlocks (Audited ScriptedAllocator) := new ⟨a, []⟩
    let calls : List AllocatorCall := [.allocated 0x1400 0x2000, .allocated 0x1000 0x2000,
      .allocated 0x1c00 0x2000, .released 0x1400, .released 0x1000]
    Supplies heap.start calls ∧
      ∃ r c', c'.allocator.calls = calls ∧ c.pin .checked heap 0x17ff = (.ok (some r), c') := by
  intro heap a c calls
  have hsupplies : Supplies heap.start calls := by
    refine ⟨by decide, by decide, fun block brk hcall => ?_⟩
    simp only [calls, List.mem_cons, AllocatorCall.allocated.injEq, reduceCtorEq, List.not_mem_nil,
      or_false] at hcall
    obtain ⟨rfl, rfl⟩ | ⟨rfl, rfl⟩ | ⟨rfl, rfl⟩ := hcall <;> decide
  obtain ⟨found, c', calls', hpin, -, hcalls, hfound⟩ :=
    attempts_suffice .checked c (show heap.contains 0x17ff = true by decide)
  have hmade : (c.pin .checked heap 0x17ff).2.allocator.calls = calls := by decide +kernel
  rw [hpin] at hmade
  obtain rfl : calls' = calls := hcalls.symm.trans hmade
  obtain ⟨r, rfl⟩ := Option.isSome_iff_exists.mp (hfound hsupplies).1
  exact ⟨hsupplies, r, c', hmade, hpin⟩

end PinnedBlocks

end TraceCapture
