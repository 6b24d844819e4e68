import TraceCapture.Proofs.Memory.Pinning

set_option autoImplicit false

namespace TraceCapture

open BlockAllocator (programBreak)

class GrowingBreak (α : Type) [BlockAllocator α] : Prop where
  allocate_le : ∀ a : α, programBreak a ≤ programBreak (BlockAllocator.allocate a).2
  release_le : ∀ (a : α) (block : Nat),
    programBreak a ≤ programBreak (BlockAllocator.release a block)

structure GrowingAllocator where
  script : List (Nat × Nat)
  programBreak : Nat

namespace GrowingAllocator

def allocate (a : GrowingAllocator) : Option Nat × GrowingAllocator :=
  match a.script with
  | [] => (none, a)
  | (block, brk) :: script => (some block, ⟨script, max a.programBreak brk⟩)

instance : BlockAllocator GrowingAllocator where
  allocate := allocate
  release a _ := a
  programBreak := GrowingAllocator.programBreak

instance : GrowingBreak GrowingAllocator where
  allocate_le
    | ⟨[], _⟩ => Nat.le_refl _
    | ⟨_ :: _, _⟩ => Nat.le_max_left _ _
  release_le _ _ := Nat.le_refl _

end GrowingAllocator

namespace Audited

variable {α : Type} [BlockAllocator α]

instance [GrowingBreak α] : GrowingBreak (Audited α) where
  allocate_le a := by
    have hle := GrowingBreak.allocate_le a.inner
    rcases halloc : BlockAllocator.allocate a with ⟨_ | block, a'⟩
    · obtain ⟨inner, hinner, rfl⟩ := of_allocate_none halloc
      rwa [hinner] at hle
    · obtain ⟨inner, hinner, rfl⟩ := of_allocate_some halloc
      rwa [hinner] at hle
  release_le a block := GrowingBreak.release_le a.inner block

def BreaksBelow (a : Audited α) : Prop :=
  ∀ block brk, .allocated block brk ∈ a.calls → brk ≤ programBreak a

theorem BreaksBelow.allocate [GrowingBreak α] {a : Audited α} (h : a.BreaksBelow) :
    (BlockAllocator.allocate a).2.BreaksBelow := by
  have hle := GrowingBreak.allocate_le a
  rcases halloc : BlockAllocator.allocate a with ⟨_ | fresh, a'⟩
  · obtain ⟨inner, -, rfl⟩ := of_allocate_none halloc
    rw [halloc] at hle
    intro block brk hmem
    exact (h block brk (by simpa using hmem)).trans hle
  · obtain ⟨inner, -, rfl⟩ := of_allocate_some halloc
    rw [halloc] at hle
    intro block brk hmem
    obtain hmem | hmem := List.mem_append.mp hmem
    · exact (h block brk hmem).trans hle
    · cases List.mem_singleton.mp hmem
      exact Nat.le_refl _

theorem BreaksBelow.release [GrowingBreak α] {a : Audited α} (h : a.BreaksBelow) (freed : Nat) :
    (BlockAllocator.release a freed).BreaksBelow := by
  intro block brk hmem
  refine (h block brk ?_).trans (GrowingBreak.release_le a freed)
  simpa [BlockAllocator.release] using hmem

end Audited

namespace PinnedBlocks

section

variable {α : Type} [BlockAllocator α] {P : α → Prop} {address : Nat}

theorem search_keeps (hallocate : ∀ a, P a → P (BlockAllocator.allocate a).2) (address n : Nat)
    (a : α) (rejected : Array Nat) (h : P a) : P (search address n a rejected).2.2 := by
  fun_induction search address n a rejected with
  | case1 => exact h
  | case2 n a rejected a' halloc | case3 n a rejected block a' halloc hfits =>
    have := hallocate a h
    rwa [halloc] at this
  | case4 n a rejected block a' halloc hfits ih =>
    apply ih
    have := hallocate a h
    rwa [halloc] at this

theorem pin_keeps (hallocate : ∀ a, P a → P (BlockAllocator.allocate a).2)
    (hrelease : ∀ a block, P a → P (BlockAllocator.release a block)) (p : Profile)
    (c : PinnedBlocks α) (heap : Region) (h : P c.allocator) :
    P (c.pin p heap address).2.allocator := by
  have hfold : ∀ (blocks : List Nat) (a : α), P a → P (blocks.foldl BlockAllocator.release a) := by
    intro blocks
    induction blocks with
    | nil => exact fun _ h => h
    | cons block blocks ih => exact fun a h => ih _ (hrelease a block h)
  unfold pin extend
  split
  · exact h
  · split
    · exact h
    · have hsearch := search_keeps hallocate address (attempts heap) c.allocator #[] h
      rcases hresult : search address (attempts heap) c.allocator #[] with
        ⟨_ | block, rejected, a⟩ <;>
      · rw [hresult] at hsearch
        simp only [← Array.foldl_toList]
        exact hfold _ _ hsearch

end

section

variable {α : Type} {c c' : PinnedBlocks α} {heap heap' : Region} {address index : Nat}

/-- Where the stretch around an address ends, wherever the heap does. -/
def stretchStop (c : PinnedBlocks α) (address index : Nat) : Nat :=
  if c.blocks.getD index 0 ≤ address then blockEnd (c.blocks.getD index 0)
  else c.blocks.getD index 0

theorem stretchStop_le (c : PinnedBlocks α) (address index : Nat) :
    min (c.stretchStop address index) Word.max ≤ blockEnd (c.blocks.getD index 0) := by
  unfold stretchStop blockEnd Word.satAdd
  split <;> omega

/-- Of the heap a stretch depends on the start and on the rights; it is cut off where the heap
stops. -/
theorem stretch_eq (hstart : heap'.start = heap.start)
    (hprotection : heap'.protection = heap.protection) :
    c.stretch heap' address index =
      { c.stretch heap address index with
        stop := min (c.stretchStop address index) heap'.stop } := by
  unfold stretch stretchStop
  dsimp only
  rw [hstart, hprotection]
  split
  · rfl
  · split <;> rfl

theorem find?_of_isPrefix (h : c.find? address = some index)
    (hextends : c.blocks.toList <+: c'.blocks.toList) :
    c'.find? address = some index ∧
      ∀ heap, c'.stretch heap address index = c.stretch heap address index := by
  obtain ⟨more, hmore⟩ := hextends
  have hblocks : c'.blocks = c.blocks ++ more.toArray := by
    rw [← Array.toList_inj, ← hmore, Array.toList_append]
  have hindex : index < c.blocks.size := (Array.findIdx?_eq_some_iff_getElem.mp h).1
  have hkept : ∀ i < c.blocks.size, c'.blocks.getD i 0 = c.blocks.getD i 0 := by
    intro i hi
    rw [hblocks, Array.getD_eq_getD_getElem?, Array.getElem?_append_left hi,
      Array.getD_eq_getD_getElem?]
  constructor
  · unfold find? at h ⊢
    rw [hblocks, Array.findIdx?_append, h]
    rfl
  · intro heap
    unfold stretch
    rw [hkept index hindex, hkept (index - 1) (by omega)]

end

section

variable {α : Type} [BlockAllocator α] {p : Profile} {heap : Region} {address index : Nat}

theorem pin_of_find? {c : PinnedBlocks α} (hheap : heap.contains address = true)
    (h : c.find? address = some index) :
    c.pin p heap address = (.ok (some (c.stretch heap address index)), c) := by
  unfold pin
  rw [if_neg (by simp [hheap]), h]

/-- A query that is answered leaves the block behind by which it is answered again. -/
theorem find?_of_pin {c c' : PinnedBlocks α} {r : Region} (hheap : heap.contains address = true)
    (hmax : address < Word.max) (hpin : c.pin p heap address = (.ok (some r), c')) :
    ∃ index, c'.find? address = some index ∧ r = c'.stretch heap address index := by
  cases hfind : c.find? address with
  | some index =>
    rw [pin_of_find? hheap hfind] at hpin
    cases hpin
    exact ⟨index, hfind, rfl⟩
  | none =>
    unfold pin at hpin
    rw [if_neg (by simp [hheap]), hfind] at hpin
    rcases hextend : c.extend heap address with ⟨pinned, c''⟩
    rw [hextend] at hpin
    cases pinned with
    | false => cases hpin
    | true =>
      cases hpin
      obtain ⟨block, hblocks, habove⟩ := blocks_extend hextend
      refine ⟨_, ?_, rfl⟩
      unfold find? at hfind ⊢
      rw [hblocks, Array.findIdx?_push, hfind, Array.size_push, Nat.add_sub_cancel,
        if_pos (decide_eq_true (lt_blockEnd habove hmax))]
      rfl

def Growing (a a' : α) : Prop := programBreak a ≤ programBreak a'

variable [GrowingBreak α] {c c' : PinnedBlocks (Audited α)}

theorem Pins.programBreak_le (h : Pins Growing c c') :
    programBreak c.allocator ≤ programBreak c'.allocator := by
  induction h with
  | refl => exact Nat.le_refl _
  | @tail c₁ c₂ _ hnext ih =>
    cases hnext with
    | pin p =>
      refine pin_keeps (P := fun a => programBreak c.allocator ≤ programBreak a) ?_ ?_ p c₁ _ ih
      · exact fun a h => h.trans (GrowingBreak.allocate_le a)
      · exact fun a block h => h.trans (GrowingBreak.release_le a block)
    | elsewhere _ hallowed => exact ih.trans hallowed

theorem Pins.breaksBelow (h : Pins Growing c c') (hc : c.allocator.BreaksBelow) :
    c'.allocator.BreaksBelow := by
  induction h with
  | refl => exact hc
  | @tail c₁ c₂ _ hnext ih =>
    cases hnext with
    | pin p =>
      exact pin_keeps (fun _ h => Audited.BreaksBelow.allocate h)
        (fun _ block h => Audited.BreaksBelow.release h block) p c₁ _ ih
    | elsewhere _ hallowed => exact fun block brk hmem => (ih block brk hmem).trans hallowed

theorem blockEnd_le_programBreak {a : α} (h : Pins Growing (new ⟨a, []⟩) c)
    (hfind : c.find? address = some index) :
    blockEnd (c.blocks.getD index 0) ≤ programBreak c.allocator := by
  have hindex : index < c.blocks.size := (Array.findIdx?_eq_some_iff_getElem.mp hfind).1
  have hmem : c.blocks.getD index 0 ∈ c.blocks.toList := by
    rw [Array.getD_eq_getD_getElem?, Array.getElem?_eq_getElem hindex]
    exact Array.mem_toList_iff.mpr (Array.getElem_mem hindex)
  obtain ⟨brk, hcall, hend⟩ := (h.inOrder (inOrder_new _)).below_break _ hmem
  exact hend.trans (h.breaksBelow nofun _ _ hcall)

/-- Once a query is answered, all later ones get the same answer, and no call to the allocator is
made for them. The first answer is that one cut off where the heap stopped; it is the same unless
the break was moved past that while a block was allocated. -/
theorem answers_are_stable {a : α} {c₁ c₂ : PinnedBlocks (Audited α)} {r : Region}
    (hrun : Pins Growing (new ⟨a, []⟩) c₁) (hbreak : programBreak c₁.allocator ≤ heap.stop)
    (hheap : heap.contains address = true) (hstop : heap.stop < Word.size)
    (hpin : c₁.pin p heap address = (.ok (some r), c₂)) :
    ∃ whole : Region, r = { whole with stop := min whole.stop heap.stop } ∧
      (c₂ = c₁ ∨ programBreak c₂.allocator ≤ heap.stop → r = whole) ∧
      ∀ (p' : Profile) (c₃ : PinnedBlocks (Audited α)) (heap' : Region), Pins Growing c₂ c₃ →
        heap'.start = heap.start → heap'.protection = heap.protection →
        heap.stop ≤ heap'.stop → heap'.stop < Word.size →
        programBreak c₃.allocator ≤ heap'.stop →
        c₃.pin p' heap' address = (.ok (some whole), c₃) := by
  obtain ⟨hin, hlt⟩ := Region.contains_iff.mp hheap
  have hmax : heap.stop ≤ Word.max := Nat.le_sub_one_of_lt hstop
  obtain ⟨index, hfind, rfl⟩ := find?_of_pin hheap (hlt.trans_le hmax) hpin
  have hrun₂ : Pins Growing (new ⟨a, []⟩) c₂ := by
    have hnext : PinNext Growing c₁ (c₁.pin p heap address).2 := .pin p c₁ hheap hstop
    rw [hpin] at hnext
    exact hrun.tail hnext
  -- The block ends below the break: no heap that reaches up to the break cuts the stretch off.
  have hend := blockEnd_le_programBreak hrun₂ hfind
  obtain ⟨stop, hstop₂, hle⟩ : ∃ stop, stop = min (c₂.stretchStop address index) Word.max ∧
      stop ≤ blockEnd (c₂.blocks.getD index 0) := ⟨_, rfl, c₂.stretchStop_le address index⟩
  have hcut : ∀ {heap' : Region}, heap'.start = heap.start →
      heap'.protection = heap.protection →
      ∀ stop, min (c₂.stretchStop address index) heap'.stop = stop →
      c₂.stretch heap' address index = { c₂.stretch heap address index with stop } := by
    rintro heap' hstart hprotection _ rfl
    exact stretch_eq hstart hprotection
  refine ⟨{ c₂.stretch heap address index with stop },
    hcut rfl rfl (min stop heap.stop) (by omega), ?_, ?_⟩
  · intro hcalm
    have hbreak₂ : programBreak c₂.allocator ≤ heap.stop := by
      obtain rfl | hcalm := hcalm
      · exact hbreak
      · exact hcalm
    exact hcut rfl rfl stop (by omega)
  · intro p' c₃ heap' hlater hstart hprotection hgrown hstop' hbreak'
    have hheap' : heap'.contains address = true :=
      Region.contains_iff.mpr ⟨hstart.trans_le hin, hlt.trans_le hgrown⟩
    obtain ⟨hfind', hsame⟩ := find?_of_isPrefix hfind hlater.isPrefix
    have hbreak₃ := hlater.programBreak_le
    have hmax' : heap'.stop ≤ Word.max := Nat.le_sub_one_of_lt hstop'
    rw [pin_of_find? hheap' hfind', hsame, hcut hstart hprotection stop (by omega)]

/-- The heap stops at the break, allocating moves the break on, and the block lies behind the old
one. The first answer is the whole mapping; once the heap has grown it is the stretch up to the
block. -/
theorem first_answer_falls_short :
    let heap : Region := ⟨0x1000, 0x2000, .ofRights [.read, .write]⟩
    let c : PinnedBlocks (Audited GrowingAllocator) := new ⟨⟨[(0x2400, 0x3000)], 0x2000⟩, []⟩
    programBreak c.allocator = heap.stop ∧
      ∃ c', c.pin .checked heap 0x1800 = (.ok (some heap), c') ∧
        programBreak c'.allocator = 0x3000 ∧
        c'.pin .checked { heap with stop := 0x3000 } 0x1800 =
          (.ok (some { heap with stop := 0x2400 }), c') := by
  intro heap c
  exact ⟨rfl, ⟨⟨⟨[], 0x3000⟩, [.allocated 0x2400 0x3000]⟩, #[0x2400]⟩, by cbv, rfl, by cbv⟩

end

theorem answers_are_stable_while_growing :
    let heap : Region := ⟨0x1000, 0x2000, .ofRights [.read, .write]⟩
    let c : PinnedBlocks (Audited GrowingAllocator) := new ⟨⟨[(0x1c00, 0x2000)], 0x2000⟩, []⟩
    let calls := [AllocatorCall.allocated 0x1c00 0x2000]
    let c' : PinnedBlocks (Audited GrowingAllocator) := ⟨⟨⟨[], 0x2000⟩, calls⟩, #[0x1c00]⟩
    let later : PinnedBlocks (Audited GrowingAllocator) := ⟨⟨⟨[], 0x3000⟩, calls⟩, #[0x1c00]⟩
    Pins Growing (new c.allocator) c ∧ Pins Growing c' later ∧
      c.pin .checked heap 0x1800 = (.ok (some { heap with stop := 0x1c00 }), c') ∧
      later.pin .checked { heap with stop := 0x3000 } 0x1800 =
        (.ok (some { heap with stop := 0x1c00 }), later) := by
  intro heap c calls c' later
  have hpin : c.pin .checked heap 0x1800 = (.ok (some { heap with stop := 0x1c00 }), c') := by
    cbv
  have hlater : Pins Growing c' later :=
    .single (.elsewhere c' (show 0x2000 ≤ 0x3000 by decide))
  obtain ⟨whole, -, hfirst, hall⟩ :=
    answers_are_stable .refl (by decide) (by decide) (by decide) hpin
  obtain rfl := hfirst (.inr (by decide))
  exact ⟨.refl, hlater, hpin, hall .checked later { heap with stop := 0x3000 } hlater rfl rfl
    (by decide) (by decide) (by decide)⟩

end PinnedBlocks

end TraceCapture
