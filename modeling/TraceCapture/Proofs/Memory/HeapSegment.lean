import Mathlib.Data.Nat.Bitwise
import Mathlib.Order.Bounds.Basic
import TraceCapture.Proofs.Memory.Enclosing

set_option autoImplicit false

namespace TraceCapture

namespace Word

theorem and_complement {x k : Nat} (hx : x < size) (hk : k < 64) :
    x &&& complement (2 ^ k - 1) = x / 2 ^ k * 2 ^ k := by
  have hpos : 0 < 2 ^ k := Nat.two_pow_pos k
  have hpow : 2 ^ k < 2 ^ 64 := Nat.pow_lt_pow_right (by decide) hk
  have hlow : 2 ^ k - 1 < 2 ^ 64 := Nat.lt_of_le_of_lt (Nat.sub_le _ _) hpow
  have hmask : complement (2 ^ k - 1) = 2 ^ 64 - (2 ^ k - 1 + 1) := by
    unfold complement max size
    omega
  rw [hmask]
  apply Nat.eq_of_testBit_eq
  intro i
  rw [Nat.testBit_and, Nat.testBit_two_pow_sub_succ hlow, Nat.testBit_two_pow_sub_one,
    Nat.testBit_mul_two_pow, Nat.testBit_div_two_pow]
  by_cases hik : k ≤ i
  · rw [Nat.sub_add_cancel hik]
    by_cases hi : i < 64
    · simp [hik, hi]
    · -- no bit of a 64-bit number is that high
      have hhigh : x < 2 ^ i :=
        Nat.lt_of_lt_of_le hx (Nat.pow_le_pow_right Nat.zero_lt_two (Nat.le_of_not_lt hi))
      simp [Nat.testBit_lt_two_pow hhigh]
  · simp [hik, Nat.lt_of_not_le hik]

theorem le_div_mul_iff {n d x : Nat} (hd : 0 < d) (h : d ∣ n) : n ≤ x / d * d ↔ n ≤ x := by
  obtain ⟨q, rfl⟩ := h
  rw [Nat.mul_comm d q, Nat.mul_le_mul_right_iff hd, Nat.le_div_iff_mul_le hd]

theorem isLeast_multiple_iff {n d b : Nat} (hd : 0 < d) (h : d ∣ n) :
    IsLeast {m | d ∣ m ∧ b ≤ m} n ↔ b ≤ n ∧ n < b + d := by
  constructor
  · rintro ⟨⟨-, hle⟩, hleast⟩
    refine ⟨hle, Nat.lt_of_not_le fun hfar => ?_⟩
    have hbelow : n ≤ n - d := hleast ⟨Nat.dvd_sub h (Nat.dvd_refl d), Nat.le_sub_of_add_le hfar⟩
    omega
  · rintro ⟨hle, hlt⟩
    refine ⟨⟨h, hle⟩, fun m hm => ?_⟩
    exact Nat.le_of_lt_add_of_dvd (Nat.lt_of_lt_of_le hlt (Nat.add_le_add_right hm.2 d)) h hm.1

end Word

namespace Region

variable {p : Profile} {r s : Region} {k programBreak : Nat}

/-- A region of whole pages ends at the break if it stops less than a page above it. That the sum
stops at the largest address makes no difference. -/
theorem endsAtBreak_eq (hk : k < 64) (hstop : r.stop < Word.size) (hpages : 2 ^ k ∣ r.stop) :
    r.endsAtBreak p programBreak (2 ^ k) = .ok (decide
      (r.start ≤ programBreak ∧ programBreak ≤ r.stop ∧ r.stop < programBreak + 2 ^ k)) := by
  have hpos : 0 < 2 ^ k := Nat.two_pow_pos k
  have hpow : 2 ^ k < Word.size := Nat.pow_lt_pow_right (by decide) hk
  have hsum : Word.satAdd programBreak (2 ^ k - 1) < Word.size :=
    Nat.lt_of_le_of_lt (Nat.min_le_right _ _) (by decide)
  have hround : r.stop ≤ Word.satAdd programBreak (2 ^ k - 1) ↔ r.stop < programBreak + 2 ^ k := by
    unfold Word.satAdd Word.max
    omega
  rw [endsAtBreak, Word.sub_of_le hpos hpow]
  simp only [Except.map, Word.and_complement hsum hk, Word.le_div_mul_iff hpos hpages, hround]

def Apart (r s : Region) : Prop := ∀ a, ¬(r.contains a = true ∧ s.contains a = true)

/-- The regions that queries may take for the heap: those that have addresses and end at the
break. -/
def heaps (p : Profile) (regions : List Region) (programBreak pageSize : Nat) : List Region :=
  regions.filter fun r =>
    !r.isEmpty && decide (r.endsAtBreak p programBreak pageSize = .ok true)

theorem mem_heaps {regions : List Region} {pageSize : Nat} :
    r ∈ heaps p regions programBreak pageSize ↔
      r ∈ regions ∧ r.start < r.stop ∧ r.endsAtBreak p programBreak pageSize = .ok true := by
  simp [heaps, isEmpty, length, Nat.sub_eq_zero_iff_le]

theorem not_apart_of_stop_eq (hr : r.start < r.stop) (hs : s.start < s.stop)
    (h : r.stop = s.stop) : ¬ r.Apart s := by
  intro hapart
  refine hapart (r.stop - 1) ⟨contains_iff.mpr ?_, contains_iff.mpr ?_⟩ <;> omega

/-- Whatever region a query may take for the heap stops at the same place. -/
theorem stop_eq_of_endsAtBreak (hk : k < 64) (hstop : r.stop < Word.size)
    (hstop' : s.stop < Word.size) (hpages : 2 ^ k ∣ r.stop) (hpages' : 2 ^ k ∣ s.stop)
    (h : r.endsAtBreak p programBreak (2 ^ k) = .ok true)
    (h' : s.endsAtBreak p programBreak (2 ^ k) = .ok true) : r.stop = s.stop := by
  rw [endsAtBreak_eq hk hstop hpages, Except.ok.injEq, decide_eq_true_eq] at h
  rw [endsAtBreak_eq hk hstop' hpages', Except.ok.injEq, decide_eq_true_eq] at h'
  have hpos : 0 < 2 ^ k := Nat.two_pow_pos k
  exact ((Word.isLeast_multiple_iff hpos hpages).mpr h.2).unique
    ((Word.isLeast_multiple_iff hpos hpages').mpr h'.2)

end Region

/-- Only a query about an address of such a region asks for blocks. -/
theorem PinnedBlocks.enclosing_of_not_heap {α : Type} [BlockAllocator α] {p : Profile}
    {c : PinnedBlocks α} {regions : List Region} {address programBreak pageSize : Nat}
    (hpage : 1 ≤ pageSize)
    (h : ∀ r ∈ Region.heaps p regions programBreak pageSize, r.contains address = false) :
    ∃ found, c.enclosing p regions address programBreak pageSize = (.ok found, c) := by
  unfold enclosing
  split
  · exact ⟨none, rfl⟩
  · next r following hdrop =>
    obtain ⟨-, hr, front, hsplit, -⟩ := find?_eq_some_of_dropWhile hdrop
    obtain ⟨heap, hheap⟩ := Region.endsAtBreak_ok (p := p) hpage r programBreak
    rw [hheap]
    split
    · exact ⟨none, rfl⟩
    · cases heap with
      | false => exact ⟨some (r.absorb following), rfl⟩
      | true =>
        have hlt := Region.contains_iff.mp hr
        have hmem : r ∈ regions := hsplit ▸ List.mem_append_right _ List.mem_cons_self
        have hout := h r (Region.mem_heaps.mpr ⟨hmem, Nat.lt_of_le_of_lt hlt.1 hlt.2, hheap⟩)
        rw [hr] at hout
        cases hout

/-- For every page size that is a power of two and every break: a region of whole pages ends at the
break if and only if it starts at or below it and stops at the least multiple of the page size that
is not below it, as far up as that may be. So of regions that have no address in common at most one
is taken for the heap, and a query about an address outside of it asks for no block. -/
theorem heap_stops_with_page_of_break (p : Profile) {k : Nat} (hk : k < 64) (programBreak : Nat) :
    (∀ r : Region, r.stop < Word.size → 2 ^ k ∣ r.stop → ∃ heap,
      r.endsAtBreak p programBreak (2 ^ k) = .ok heap ∧ (heap = true ↔
        r.start ≤ programBreak ∧ IsLeast {n | 2 ^ k ∣ n ∧ programBreak ≤ n} r.stop)) ∧
    ∀ regions : List Region, regions.Pairwise Region.Apart →
      (∀ r ∈ regions, r.stop < Word.size ∧ 2 ^ k ∣ r.stop) →
      (Region.heaps p regions programBreak (2 ^ k)).length ≤ 1 ∧
      ∀ (α : Type) [BlockAllocator α] (c : PinnedBlocks α) (address : Nat),
        (∀ r ∈ Region.heaps p regions programBreak (2 ^ k), r.contains address = false) →
        ∃ found, c.enclosing p regions address programBreak (2 ^ k) = (.ok found, c) := by
  have hpos : 0 < 2 ^ k := Nat.two_pow_pos k
  refine ⟨fun r hstop hpages => ⟨_, Region.endsAtBreak_eq hk hstop hpages, ?_⟩,
    fun regions hapart hregions => ⟨?_, fun α _ c address => c.enclosing_of_not_heap hpos⟩⟩
  · rw [decide_eq_true_eq, Word.isLeast_multiple_iff hpos hpages]
  · have hpairs : (Region.heaps p regions programBreak (2 ^ k)).Pairwise Region.Apart :=
      hapart.filter _
    cases hheaps : Region.heaps p regions programBreak (2 ^ k) with
    | nil => exact Nat.zero_le 1
    | cons r rest =>
      cases rest with
      | nil => exact Nat.le_refl 1
      | cons s rest =>
        rw [hheaps] at hpairs
        obtain ⟨hr, hlen, hend⟩ := Region.mem_heaps.mp (hheaps ▸ List.mem_cons_self)
        obtain ⟨hs, hlen', hend'⟩ := Region.mem_heaps.mp
          (hheaps ▸ List.mem_cons_of_mem r List.mem_cons_self)
        have hsame := Region.stop_eq_of_endsAtBreak hk (hregions r hr).1 (hregions s hs).1
          (hregions r hr).2 (hregions s hs).2 hend hend'
        exact absurd (List.rel_of_pairwise_cons hpairs List.mem_cons_self)
          (Region.not_apart_of_stop_eq hlen hlen' hsame)

/-- The break is in the last page of the heap. A break in the last page of all is above a region
that stops at the start of that page, though the rounded sum is not. -/
theorem heap_stops_with_page_of_break_at_the_top :
    let heap : Region := ⟨0x1000, 0x5000, .ofRights [.read, .write]⟩
    let top : Region := ⟨0xffffffffffffe000, 0xfffffffffffff000, .ofRights [.read, .write]⟩
    heap.endsAtBreak .checked 0x4321 (2 ^ 12) = .ok true ∧
      (Region.heaps .checked [heap, top] 0x4321 (2 ^ 12)).length ≤ 1 ∧
      top.endsAtBreak .checked 0xfffffffffffff001 (2 ^ 12) = .ok false := by
  intro heap top
  have hk : 12 < 64 := by decide
  have hwhole : ∀ r ∈ [heap, top], r.stop < Word.size ∧ 2 ^ 12 ∣ r.stop := by
    intro r hr
    simp only [List.mem_cons, List.not_mem_nil, or_false] at hr
    rcases hr with rfl | rfl <;> exact ⟨by decide, by decide⟩
  have hapart : [heap, top].Pairwise Region.Apart := by
    refine List.pairwise_pair.mpr fun a ha => ?_
    rw [Region.contains_iff, Region.contains_iff] at ha
    dsimp only [heap, top] at ha
    omega
  obtain ⟨hends, hlisting⟩ := heap_stops_with_page_of_break .checked hk 0x4321
  obtain ⟨hendsTop, -⟩ := heap_stops_with_page_of_break .checked hk 0xfffffffffffff001
  refine ⟨?_, (hlisting _ hapart hwhole).1, ?_⟩
  · obtain ⟨found, hfound, hiff⟩ := hends heap (by decide) (by decide)
    have hleast : IsLeast {n | 2 ^ 12 ∣ n ∧ 0x4321 ≤ n} heap.stop := by
      refine ⟨⟨by decide, by decide⟩, ?_⟩
      rintro n ⟨⟨q, rfl⟩, hn⟩
      dsimp only [heap]
      omega
    rw [hfound, hiff.mpr ⟨by decide, hleast⟩]
  · obtain ⟨found, hfound, hiff⟩ := hendsTop top (by decide) (by decide)
    have hfalse : found ≠ true := fun htrue => absurd (hiff.mp htrue).2.1.2 (by decide)
    rw [hfound, Bool.eq_false_of_not_eq_true hfalse]

end TraceCapture
