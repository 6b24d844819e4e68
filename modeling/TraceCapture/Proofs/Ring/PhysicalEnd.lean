import TraceCapture.Proofs.Ring.AnyUse

set_option autoImplicit false

namespace TraceCapture

namespace Ring

variable {p : Profile} {capacity n : Nat} {r : Ring}

theorem Reachable.read_add_lt (h : r.Reachable p capacity) (hn : n < Bytes.bufferLimit) :
    r.read + n < Word.size := by
  have hread := h.inBounds.read_lt
  have hlt := (new_eq_ok_iff.mp h.new_eq_ok).2
  have htwice : Bytes.bufferLimit + Bytes.bufferLimit = Word.size := rfl
  omega

theorem overflows_of_lt (h : r.read + n < Word.size) :
    r.overflows p n = .ok (decide (r.capacity < r.read + n)) := by
  rw [overflows, Word.add_of_lt h]
  rfl

theorem overflowsBy_of_lt (h : r.read + n < Word.size) :
    r.overflowsBy p n = .ok (r.read + n - r.capacity) := by
  rw [overflowsBy, Word.add_of_lt h]
  rfl

theorem peek_of_le (hn : n ≤ r.capacity) : r.peek n = .ok (r.slices n) := by
  rw [peek, if_neg (by omega)]

theorem slices_of_lt (hread : r.read < r.capacity) (hacross : r.capacity < r.read + n) :
    r.slices n = (r.storage.extract r.read r.capacity,
      r.storage.extract 0 (r.read + n - r.capacity)) := by
  have hbehind : n - (r.capacity - r.read) = r.read + n - r.capacity := by omega
  rw [slices, if_pos (by omega), hbehind]

theorem take_twice (hread : r.read < r.capacity) (hn : n ≤ r.capacity)
    (hacross : r.capacity < r.read + n) :
    r.take (r.capacity - r.read) = (.ok (r.slices n).1, { r with read := 0 }) ∧
    take { r with read := 0 } (r.read + n - r.capacity) =
      (.ok (r.slices n).2, { r with read := r.slot n }) := by
  rw [slices_of_lt hread hacross]
  constructor
  · have hend : r.read + (r.capacity - r.read) = r.capacity := by omega
    rw [take_of_le hread (Nat.le_of_eq hend), hend, slot, hend, if_neg (Nat.lt_irrefl _),
      Nat.sub_self]
  · have hbehind : r.read + n - r.capacity < r.capacity := by omega
    have hslot : r.slot n = r.read + n - r.capacity := if_neg (by omega)
    have hstart : slot { r with read := 0 } (r.read + n - r.capacity) =
        r.read + n - r.capacity := by
      unfold slot
      dsimp only
      rw [Nat.zero_add]
      exact if_pos hbehind
    rw [take_of_le (r := { r with read := 0 }) (Nat.zero_lt_of_lt hread)
      (Nat.zero_add _ ▸ Nat.le_of_lt hbehind), hstart, hslot]
    dsimp only
    rw [Nat.zero_add]

end Ring

/-- Bytes up to the physical end: a take gives what a peek shows, in one piece, and moves the ring
as an advance does. Bytes across it: the take panics and nothing moves, and of the bytes that a peek
shows as many lie in the second piece as the ring tells. -/
theorem take_agrees_with_peek {p : Profile} {capacity : Nat} {r : Ring}
    (hr : r.Reachable p capacity) {n : Nat} (hn : n < Bytes.bufferLimit) :
    r.overflows p n = .ok (decide (capacity < r.read + n)) ∧
    (r.read + n ≤ capacity → ∃ a b t, r.peek n = .ok (a, b) ∧ b = .empty ∧ (a ++ b).size = n ∧
      r.take n = (.ok (a ++ b), t) ∧ r.advance n = (.ok (), t)) ∧
    (capacity < r.read + n → r.take n = (.error (.readAcrossEnd n r.read capacity), r) ∧
      ∃ k, r.overflowsBy p n = .ok k ∧ 0 < k ∧
        (n ≤ capacity → ∃ a b, r.peek n = .ok (a, b) ∧ b.size = k ∧ (a ++ b).size = n)) := by
  have hread := hr.inBounds.read_lt
  have hsum := hr.read_add_lt hn
  obtain rfl := hr.inBounds.capacity_eq
  refine ⟨Ring.overflows_of_lt hsum, fun hin => ?_, fun hacross => ⟨?_, _,
    Ring.overflowsBy_of_lt hsum, by omega, fun hle => ?_⟩⟩
  · have hle : n ≤ r.capacity := by omega
    have hsize := Ring.size_slices hread hle
    have hpeek := Ring.peek_of_le hle
    rw [Ring.slices_of_le hin] at hsize hpeek
    refine ⟨_, _, _, hpeek, rfl, hsize, ?_, Ring.advance_of_le hread hle⟩
    rw [Ring.take_of_le hread hin, ByteArray.append_empty]
  · rw [Ring.take, if_pos hacross]
  · have hsize := Ring.size_slices hread hle
    have hpeek := Ring.peek_of_le hle
    rw [Ring.slices_of_lt hread hacross] at hsize hpeek
    refine ⟨_, _, hpeek, ?_, hsize⟩
    rw [ByteArray.size_extract]
    unfold Ring.capacity at *
    omega

theorem take_agrees_with_peek_at_end :
    oneUnread.Reachable .checked 4 ∧
    (∃ a t, oneUnread.peek 2 = .ok (a, .empty) ∧ oneUnread.take 2 = (.ok (a ++ .empty), t) ∧
      oneUnread.advance 2 = (.ok (), t)) ∧
    oneUnread.overflows .checked 3 = .ok true ∧
    oneUnread.take 3 = (.error (.readAcrossEnd 3 2 4), oneUnread) ∧
    ∃ a b, oneUnread.peek 3 = .ok (a, b) ∧ oneUnread.overflowsBy .checked 3 = .ok b.size := by
  obtain ⟨-, hin, -⟩ := take_agrees_with_peek reachable_oneUnread (n := 2) (by decide)
  obtain ⟨hover, -, hacross⟩ := take_agrees_with_peek reachable_oneUnread (n := 3) (by decide)
  obtain ⟨a, b, t, hpeek, rfl, -, htake, hadvance⟩ := hin (by decide)
  obtain ⟨hrefused, k, hby, -, hpieces⟩ := hacross (by decide)
  obtain ⟨c, d, hpeek', rfl, -⟩ := hpieces (by decide)
  exact ⟨reachable_oneUnread, ⟨a, t, hpeek, htake, hadvance⟩, hover, hrefused, c, d, hpeek', hby⟩

/-- Bytes across the physical end are consumed by two takes as by a peek and an advance. -/
theorem two_takes_across_end {p : Profile} {capacity : Nat} {r : Ring}
    (hr : r.Reachable p capacity) {n : Nat} (hn : n ≤ capacity) (hacross : capacity < r.read + n) :
    ∃ k a b s t, r.overflowsBy p n = .ok k ∧ r.peek n = .ok (a, b) ∧
      r.take (n - k) = (.ok a, s) ∧ s.take k = (.ok b, t) ∧ r.advance n = (.ok (), t) := by
  have hread := hr.inBounds.read_lt
  have hlt := (Ring.new_eq_ok_iff.mp hr.new_eq_ok).2
  have hsum := hr.read_add_lt (Nat.lt_of_le_of_lt hn hlt)
  obtain rfl := hr.inBounds.capacity_eq
  have hfront : n - (r.read + n - r.capacity) = r.capacity - r.read := by omega
  obtain ⟨hfirst, hsecond⟩ := Ring.take_twice hread hn hacross
  rw [← hfront] at hfirst
  exact ⟨_, (r.slices n).1, (r.slices n).2, _, _, Ring.overflowsBy_of_lt hsum, Ring.peek_of_le hn,
    hfirst, hsecond, Ring.advance_of_le hread hn⟩

end TraceCapture
