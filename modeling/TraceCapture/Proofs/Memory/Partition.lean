import TraceCapture.Proofs.Memory.StableStretch

set_option autoImplicit false

namespace TraceCapture.PinnedBlocks

section

variable {α : Type} {c : PinnedBlocks α} {heap : Region} {x y index : Nat}

def Ascending (c : PinnedBlocks α) : Prop :=
  c.blocks.toList.Pairwise fun block later => block + blockSize ≤ later

theorem Ascending.end_le (h : c.Ascending) {i j : Nat} (hij : i < j) (hj : j < c.blocks.size) :
    c.blocks.getD i 0 + blockSize ≤ c.blocks.getD j 0 := by
  rw [← Array.getElem_eq_getD (h := Nat.lt_trans hij hj), ← Array.getElem_eq_getD (h := hj)]
  exact List.pairwise_iff_getElem.mp h i j _ hj hij

theorem find?_eq_some_iff : c.find? x = some index ↔ index < c.blocks.size ∧
    x < blockEnd (c.blocks.getD index 0) ∧ ∀ j < index, blockEnd (c.blocks.getD j 0) ≤ x := by
  rw [find?, Array.findIdx?_eq_some_iff_getElem]
  constructor
  · rintro ⟨hindex, habove, hbelow⟩
    rw [← Array.getElem_eq_getD (h := hindex)]
    refine ⟨hindex, of_decide_eq_true habove, fun j hj => ?_⟩
    rw [← Array.getElem_eq_getD (h := Nat.lt_trans hj hindex)]
    exact Nat.le_of_not_lt (by simpa using hbelow j hj)
  · rintro ⟨hindex, habove, hbelow⟩
    rw [← Array.getElem_eq_getD (h := hindex)] at habove
    refine ⟨hindex, decide_eq_true habove, fun j hj => ?_⟩
    have hle := hbelow j hj
    rw [← Array.getElem_eq_getD (h := Nat.lt_trans hj hindex)] at hle
    simpa using hle

theorem Ascending.stretch_eq_of_contains (h : c.Ascending) (hstop : heap.stop < Word.size)
    (hfind : c.find? x = some index) (hy : (c.stretch heap x index).contains y = true) :
    c.find? y = some index ∧ c.stretch heap y index = c.stretch heap x index := by
  obtain ⟨hindex, habove, hbelow⟩ := find?_eq_some_iff.mp hfind
  obtain ⟨hstart, hend⟩ := Region.contains_iff.mp hy
  have hmax : heap.stop ≤ Word.max := Nat.le_sub_one_of_lt hstop
  rw [find?_eq_some_iff]
  unfold stretch at hstart hend ⊢
  dsimp only at hstart hend ⊢
  by_cases hinside : c.blocks.getD index 0 ≤ x
  · rw [if_pos hinside] at hstart hend ⊢
    have hy : c.blocks.getD index 0 ≤ y := by omega
    rw [if_pos hy]
    refine ⟨⟨hindex, by omega, fun j hj => ?_⟩, rfl⟩
    have := h.end_le hj hindex
    have := blockEnd_le (c.blocks.getD j 0)
    omega
  · rw [if_neg hinside] at hstart hend ⊢
    rw [apply_ite Prod.snd, ite_self] at hend
    have hy : y < c.blocks.getD index 0 := by omega
    rw [if_neg (Nat.not_le_of_lt hy)]
    refine ⟨⟨hindex, lt_blockEnd hy (by omega), fun j hj => ?_⟩, rfl⟩
    -- The block right in front ends at or below `y`, and those before it end below that one.
    rw [if_neg (Nat.ne_zero_of_lt hj)] at hstart
    have := blockEnd_le (c.blocks.getD j 0)
    obtain rfl | hj := Nat.eq_or_lt_of_le (Nat.le_sub_one_of_lt hj)
    · omega
    · have := h.end_le hj (Nat.lt_of_le_of_lt (Nat.sub_le index 1) hindex)
      omega

/-- Two stretches that share an address are both the stretch around that. -/
theorem Ascending.eq_or_disjoint (h : c.Ascending) (hstop : heap.stop < Word.size) {i j : Nat}
    (hx : c.find? x = some i) (hy : c.find? y = some j) :
    c.stretch heap x i = c.stretch heap y j ∨
      ∀ z, ¬((c.stretch heap x i).contains z = true ∧ (c.stretch heap y j).contains z = true) := by
  by_cases hshare : ∃ z, (c.stretch heap x i).contains z = true ∧
      (c.stretch heap y j).contains z = true
  · obtain ⟨z, hzx, hzy⟩ := hshare
    obtain ⟨hfind, hsame⟩ := h.stretch_eq_of_contains hstop hx hzx
    obtain ⟨hfind', hsame'⟩ := h.stretch_eq_of_contains hstop hy hzy
    cases hfind.symm.trans hfind'
    exact .inl (hsame.symm.trans hsame')
  · exact .inr (not_exists.mp hshare)

end

variable {α : Type} [BlockAllocator α] {heap : Region} {c c' c₁ c₂ : PinnedBlocks (Audited α)}
  {answers : List (Nat × Option Region)} {x : Nat} {r : Region}

/-- Queries about addresses of one heap, and their answers. In between other heaps may be asked
about and the rest of the program use the allocator in any way. -/
inductive Queries (heap : Region) (c : PinnedBlocks (Audited α)) :
    List (Nat × Option Region) → PinnedBlocks (Audited α) → Prop
  | refl : Queries heap c [] c
  | pin {c₁ c₂ : PinnedBlocks (Audited α)} {answers : List (Nat × Option Region)} {x : Nat}
      {found : Option Region} (h : Queries heap c answers c₁) (p : Profile)
      (hx : heap.contains x = true) (hpin : c₁.pin p heap x = (.ok found, c₂)) :
      Queries heap c (answers ++ [(x, found)]) c₂
  | elsewhere {c₁ c₂ : PinnedBlocks (Audited α)} {answers : List (Nat × Option Region)}
      (h : Queries heap c answers c₁) (hpins : Pins (fun _ _ => True) c₁ c₂) :
      Queries heap c answers c₂

theorem Queries.pins (h : Queries heap c answers c') (hstop : heap.stop < Word.size) :
    Pins (fun _ _ => True) c c' := by
  induction h with
  | refl => exact .refl
  | @pin c₁ c₂ _ x _ _ p hx hpin ih =>
    have hnext : PinNext (fun _ _ => True) c₁ (c₁.pin p heap x).2 := .pin p c₁ hx hstop
    rw [hpin] at hnext
    exact ih.tail hnext
  | elsewhere _ hpins ih => exact ih.trans hpins

/-- Every region that was answered is a stretch of the chain as it is now. -/
theorem Queries.stretch_eq (h : Queries heap c answers c') (hstop : heap.stop < Word.size)
    (hr : (x, some r) ∈ answers) : heap.contains x = true ∧
      ∃ index, c'.find? x = some index ∧ r = c'.stretch heap x index := by
  induction h with
  | refl => cases hr
  | @pin c₁ c₂ answers y found hrun p hy hpin ih =>
    obtain hr | hr := List.mem_append.mp hr
    · obtain ⟨hx, index, hfind, rfl⟩ := ih hr
      have hnext : PinNext (fun _ _ => True) c₁ (c₁.pin p heap y).2 := .pin p c₁ hy hstop
      rw [hpin] at hnext
      obtain ⟨hfind', hsame⟩ := find?_of_isPrefix hfind hnext.isPrefix
      exact ⟨hx, index, hfind', (hsame heap).symm⟩
    · cases List.mem_singleton.mp hr
      have hlt := (Region.contains_iff.mp hy).2
      exact ⟨hy, find?_of_pin hy (hlt.trans_le (Nat.le_sub_one_of_lt hstop)) hpin⟩
  | elsewhere _ hpins ih =>
    obtain ⟨hx, index, hfind, rfl⟩ := ih hr
    obtain ⟨hfind', hsame⟩ := find?_of_isPrefix hfind hpins.isPrefix
    exact ⟨hx, index, hfind', (hsame heap).symm⟩

theorem Queries.partAround (h : Queries heap c answers c') (hstop : heap.stop < Word.size)
    (hr : (x, some r) ∈ answers) : heap.PartAround x r := by
  obtain ⟨hx, index, hfind, rfl⟩ := h.stretch_eq hstop hr
  have hmax := (Region.contains_iff.mp hx).2.trans_le (Nat.le_sub_one_of_lt hstop)
  obtain ⟨found, c'', hpin, hpart⟩ := pin_ok (p := .checked) (c := c') hx hmax
  rw [pin_of_find? hx hfind] at hpin
  cases hpin
  exact hpart _ rfl

/-- Whatever the allocator does and whatever was asked before: every query is answered, each region
is a part of the heap around its address, two regions are the same or have no address in common, and
a region is from then on the answer for each of its addresses, also when other heaps have been asked
about. -/
theorem stretches_partition_heap {a : α} (hbefore : Pins (fun _ _ => True) (new ⟨a, []⟩) c)
    (hstop : heap.stop < Word.size) (hrun : Queries heap c answers c') :
    (∀ x p, heap.contains x = true → ∃ found c'', c'.pin p heap x = (.ok found, c'')) ∧
    (∀ x r, (x, some r) ∈ answers → heap.PartAround x r) ∧
    (∀ x r y s, (x, some r) ∈ answers → (y, some s) ∈ answers →
      r = s ∨ ∀ z, ¬(r.contains z = true ∧ s.contains z = true)) ∧
    ∀ x r y p c'', (x, some r) ∈ answers → r.contains y = true →
      Pins (fun _ _ => True) c' c'' → c''.pin p heap y = (.ok (some r), c'') := by
  have hinOrder : c'.InOrder := Pins.inOrder (hbefore.trans (hrun.pins hstop)) (inOrder_new _)
  have hascending : c'.Ascending := hinOrder.ascending
  refine ⟨fun x p hx => ?_, fun x r => hrun.partAround hstop, fun x r y s hr hs => ?_,
    fun x r y p c'' hr hy hlater => ?_⟩
  · obtain ⟨found, c'', calls, added, hpin, -⟩ := pin_accounted p c' hx hstop
    exact ⟨found, c'', hpin⟩
  · obtain ⟨-, i, hi, rfl⟩ := hrun.stretch_eq hstop hr
    obtain ⟨-, j, hj, rfl⟩ := hrun.stretch_eq hstop hs
    exact hascending.eq_or_disjoint hstop hi hj
  · have hpart := hrun.partAround hstop hr
    obtain ⟨-, index, hfind, rfl⟩ := hrun.stretch_eq hstop hr
    obtain ⟨hfind, hsame⟩ := hascending.stretch_eq_of_contains hstop hfind hy
    obtain ⟨hfind', hsame'⟩ := find?_of_isPrefix hfind hlater.isPrefix
    rw [pin_of_find? (hpart.subset hy) hfind', hsame', hsame]

theorem stretches_partition_heap_in_two :
    let heap : Region := ⟨0x1000, 0x3000, .ofRights [.read, .write]⟩
    let a := (ScriptedAllocator.new 0x3000).push [0x1800, 0x1400, 0x2400]
    let c₁ := ((new ⟨a, []⟩).pin .checked heap 0x1400).2
    let c₂ := (c₁.pin .checked heap 0x2000).2
    Queries heap (new ⟨a, []⟩) [(0x1400, some { heap with stop := 0x1800 }),
        (0x2000, some { heap with start := 0x1c00, stop := 0x2400 })] c₂ ∧
      ∀ p, c₂.pin p heap 0x1c00 =
        (.ok (some { heap with start := 0x1c00, stop := 0x2400 }), c₂) := by
  intro heap a c₁ c₂
  have hfirst : (new ⟨a, []⟩).pin .checked heap 0x1400 =
      (.ok (some { heap with stop := 0x1800 }), c₁) := Prod.ext (by decide +kernel) rfl
  have hsecond : c₁.pin .checked heap 0x2000 =
      (.ok (some { heap with start := 0x1c00, stop := 0x2400 }), c₂) :=
    Prod.ext (by decide +kernel) rfl
  have hrun := (Queries.refl.pin .checked (by decide) hfirst).pin .checked (by decide) hsecond
  obtain ⟨-, -, -, hlater⟩ := stretches_partition_heap .refl (by decide) hrun
  have hmem := List.mem_append_right [(0x1400, some { heap with stop := 0x1800 })]
    (List.mem_singleton_self (0x2000, some { heap with start := 0x1c00, stop := 0x2400 }))
  exact ⟨hrun, fun p => hlater _ _ 0x1c00 p c₂ hmem (by decide) .refl⟩

end TraceCapture.PinnedBlocks
