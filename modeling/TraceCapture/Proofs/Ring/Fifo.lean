import TraceCapture.Proofs.Bytes
import TraceCapture.Ring

set_option autoImplicit false

namespace TraceCapture

namespace Ring

def slot (r : Ring) (k : Nat) : Nat :=
  if r.read + k < r.capacity then r.read + k else r.read + k - r.capacity

theorem slot_lt {r : Ring} {k : Nat} (hread : r.read < r.capacity) (hk : k ≤ r.capacity) :
    r.slot k < r.capacity := by
  unfold slot
  split <;> omega

def Holds (r : Ring) (q : ByteArray) : Prop :=
  ∀ k, k < q.size → Bytes.at? r.storage (r.slot k) = Bytes.at? q k

/-- The bytes from the read cursor to the write cursor are those of `q`, and one more fits. -/
structure Queues (r : Ring) (q : ByteArray) : Prop where
  read_lt : r.read < r.capacity
  size_lt : q.size < r.capacity
  write_eq : r.write = r.slot q.size
  at_eq : ∀ k, k < q.size → Bytes.at? r.storage (r.slot k) = Bytes.at? q k

theorem Queues.holds {r : Ring} {q : ByteArray} (h : r.Queues q) : r.Holds q := h.at_eq

theorem Queues.write_lt {r : Ring} {q : ByteArray} (h : r.Queues q) : r.write < r.capacity :=
  h.write_eq ▸ slot_lt h.read_lt (Nat.le_of_lt h.size_lt)

theorem Queues.sizeToWrite_eq {r : Ring} {q : ByteArray} (h : r.Queues q) :
    r.sizeToWrite = r.capacity - q.size := by
  have hr := h.read_lt
  have hs := h.size_lt
  have hw := h.write_eq
  unfold slot at hw
  unfold sizeToWrite
  split at hw <;> split <;> try split
  all_goals omega

theorem Queues.sizeToRead_eq {r : Ring} {q : ByteArray} (h : r.Queues q) :
    r.sizeToRead = q.size := by
  have hs := h.size_lt
  rw [sizeToRead, h.sizeToWrite_eq]
  omega

theorem Queues.isEmpty_iff {r : Ring} {q : ByteArray} (h : r.Queues q) :
    r.isEmpty = true ↔ q = .empty := by
  rw [isEmpty, h.sizeToRead_eq, beq_iff_eq, ByteArray.size_eq_zero_iff]

theorem queues_new {capacity : Nat} {r : Ring} (h : new capacity = .ok r) :
    r.capacity = capacity ∧ r.Queues .empty := by
  unfold new at h
  split at h
  · cases h
  · next h0 =>
    unfold Bytes.reserve at h
    split at h
    · cases h
      have hcap : (⟨Bytes.zeros capacity, 0, 0⟩ : Ring).capacity = capacity := Bytes.size_zeros _
      refine ⟨hcap, ?_, ?_, ?_, fun k hk => absurd hk (Nat.not_lt_zero k)⟩
      · rw [hcap]
        exact Nat.pos_of_ne_zero h0
      · rw [hcap]
        exact Nat.pos_of_ne_zero h0
      · unfold slot
        rw [hcap]
        exact (if_pos (Nat.pos_of_ne_zero h0)).symm
    · cases h

theorem new_eq {capacity : Nat} (hpos : 0 < capacity) (hlt : capacity < Bytes.bufferLimit) :
    new capacity = .ok ⟨⟨Array.replicate capacity 0⟩, 0, 0⟩ := by
  have hzeros : Bytes.zeros capacity = ⟨Array.replicate capacity 0⟩ :=
    ByteArray.ext (Bytes.data_zeros capacity)
  rw [new, if_neg (Nat.ne_of_gt hpos), Bytes.reserve_of_lt hlt, hzeros]
  rfl

theorem at?_overwrite_around {b d : ByteArray} {i j : Nat} (hi : i < b.size)
    (hend : b.size - i < d.size) (hd : d.size ≤ b.size) :
    Bytes.at? (Bytes.overwrite (Bytes.overwrite b i (d.extract 0 (b.size - i))) 0
        (d.extract (b.size - i) d.size)) j =
      if j + b.size < i + d.size then Bytes.at? d (j + b.size - i)
      else if i ≤ j ∧ j < b.size then Bytes.at? d (j - i) else Bytes.at? b j := by
  have hfront : (d.extract 0 (b.size - i)).size = b.size - i := by
    rw [ByteArray.size_extract]
    omega
  have hback : (d.extract (b.size - i) d.size).size = d.size - (b.size - i) := by
    rw [ByteArray.size_extract]
    omega
  have hfit : i + (d.extract 0 (b.size - i)).size ≤ b.size := by omega
  have hsize := Bytes.size_overwrite hfit
  rw [Bytes.at?_overwrite (by omega), Bytes.at?_overwrite hfit, Bytes.at?_extract,
    Bytes.at?_extract, hfront, hback]
  clear hfront hback hfit hsize
  by_cases haround : j + b.size < i + d.size
  · have h1 : 0 ≤ j ∧ j < 0 + (d.size - (b.size - i)) := by omega
    have h2 : j - 0 < min d.size d.size - (b.size - i) := by omega
    have h3 : b.size - i + (j - 0) = j + b.size - i := by omega
    rw [if_pos h1, if_pos h2, if_pos haround, h3]
  have h1 : ¬ (0 ≤ j ∧ j < 0 + (d.size - (b.size - i))) := by omega
  rw [if_neg h1, if_neg haround]
  by_cases hbehind : i ≤ j ∧ j < b.size
  · have h2 : i ≤ j ∧ j < i + (b.size - i) := by omega
    have h3 : j - i < min (b.size - i) d.size - 0 := by omega
    rw [if_pos h2, if_pos h3, if_pos hbehind, Nat.zero_add]
  · have h2 : ¬ (i ≤ j ∧ j < i + (b.size - i)) := by omega
    rw [if_neg h2, if_neg hbehind]

section put

variable {r : Ring} (data : ByteArray)

theorem write_put (hw : r.write < r.capacity) :
    (r.put data).write = if r.write + data.size < r.capacity then r.write + data.size
      else r.write + data.size - r.capacity := by
  unfold put
  dsimp only
  split
  · next hsplit =>
    rw [if_neg (by omega)]
    change data.size - (r.capacity - r.write) = _
    omega
  · next hsplit =>
    change (r.write + data.size) % r.capacity = _
    split
    · next hlt => exact Nat.mod_eq_of_lt hlt
    · have hend : r.write + data.size = r.capacity := by omega
      rw [hend, Nat.mod_self, Nat.sub_self]

theorem read_put : (r.put data).read = r.read := by
  unfold put
  dsimp only
  split <;> rfl

theorem capacity_put (hw : r.write < r.capacity) (hd : data.size ≤ r.capacity) :
    (r.put data).capacity = r.capacity := by
  unfold put capacity at *
  dsimp only
  split
  · next hsplit =>
    have hfit : r.write + (data.extract 0 (r.storage.size - r.write)).size ≤ r.storage.size := by
      rw [ByteArray.size_extract]
      omega
    have hsize := Bytes.size_overwrite hfit
    refine (Bytes.size_overwrite ?_).trans hsize
    rw [hsize, ByteArray.size_extract]
    omega
  · next hsplit => exact Bytes.size_overwrite (by omega)

theorem at?_put {j : Nat} (hw : r.write < r.capacity) (hd : data.size ≤ r.capacity)
    (hj : j < r.capacity) :
    Bytes.at? (r.put data).storage j =
      if j + r.capacity < r.write + data.size then Bytes.at? data (j + r.capacity - r.write)
      else if r.write ≤ j ∧ j < r.write + data.size then Bytes.at? data (j - r.write)
      else Bytes.at? r.storage j := by
  unfold put
  dsimp only
  split
  · next hsplit =>
    refine (at?_overwrite_around hw hsplit hd).trans ?_
    have hiff : r.write ≤ j ∧ j < r.storage.size ↔ r.write ≤ j ∧ j < r.write + data.size := by
      unfold capacity at *
      omega
    simp only [hiff]
    rfl
  · next hsplit =>
    have hfit : r.write + data.size ≤ r.storage.size := by
      unfold capacity at *
      omega
    rw [if_neg (by omega)]
    exact Bytes.at?_overwrite hfit j

end put

/-- Bytes that are put fit behind those that are there, also if they fill the ring. -/
theorem Holds.put {r : Ring} {q data : ByteArray} (h : r.Holds q) (hread : r.read < r.capacity)
    (hsize : q.size < r.capacity) (hwrite : r.write = r.slot q.size)
    (hroom : q.size + data.size ≤ r.capacity) : (r.put data).Holds (q ++ data) := by
  have hd : data.size ≤ r.capacity := by omega
  have hw : r.write < r.capacity := hwrite ▸ slot_lt hread (Nat.le_of_lt hsize)
  have hslot : ∀ k, (r.put data).slot k = r.slot k := by
    intro k
    rw [slot, capacity_put data hw hd, read_put]
    rfl
  intro k hk
  rw [ByteArray.size_append] at hk
  rw [hslot, at?_put data hw hd (slot_lt hread (by omega)), Bytes.at?_append]
  by_cases hq : k < q.size
  -- the old bytes are not behind the write cursor
  · have h1 : ¬ r.slot k + r.capacity < r.write + data.size := by
      unfold slot at hwrite ⊢
      split at hwrite <;> split <;> omega
    have h2 : ¬ (r.write ≤ r.slot k ∧ r.slot k < r.write + data.size) := by
      unfold slot at hwrite ⊢
      split at hwrite <;> split <;> omega
    rw [if_pos hq, ← h k hq, if_neg h1, if_neg h2]
  · rw [if_neg hq]
    split
    · next h1 =>
      congr 1
      unfold slot at hwrite h1 ⊢
      split at hwrite <;> split at h1 <;> split <;> omega
    · next h1 =>
      have h2 : r.write ≤ r.slot k ∧ r.slot k < r.write + data.size := by
        unfold slot at hwrite h1 ⊢
        split at hwrite <;> split at h1 <;> split <;> omega
      rw [if_pos h2]
      congr 1
      unfold slot at hwrite h1 ⊢
      split at hwrite <;> split at h1 <;> split <;> omega

theorem Queues.put {r : Ring} {q data : ByteArray} (h : r.Queues q)
    (hroom : q.size + data.size < r.capacity) : (r.put data).Queues (q ++ data) := by
  have hcap := capacity_put data h.write_lt (by omega)
  have hwrite := write_put data h.write_lt
  have hr := h.read_lt
  have hw := h.write_eq
  refine ⟨by rwa [hcap, read_put], by rwa [hcap, ByteArray.size_append], ?_,
    h.holds.put hr h.size_lt hw (Nat.le_of_lt hroom)⟩
  rw [slot, hcap, read_put, hwrite, ByteArray.size_append]
  unfold slot at hw
  split at hw <;> split <;> split <;> omega

theorem Queues.drop {r : Ring} {q : ByteArray} (h : r.Queues q) {n : Nat} (hn : n ≤ q.size) :
    Queues { r with read := r.slot n } (q.extract n q.size) := by
  have hr := h.read_lt
  have hs := h.size_lt
  have hw := h.write_eq
  have hsize : (q.extract n q.size).size = q.size - n := by
    rw [ByteArray.size_extract, Nat.min_self]
  have hslot : ∀ k, k + n ≤ q.size → slot { r with read := r.slot n } k = r.slot (n + k) := by
    intro k hk
    change (if r.slot n + k < r.capacity then r.slot n + k else r.slot n + k - r.capacity) =
      if r.read + (n + k) < r.capacity then r.read + (n + k) else r.read + (n + k) - r.capacity
    unfold slot
    split <;> split <;> split <;> omega
  refine ⟨?_, ?_, ?_, ?_⟩
  · change r.slot n < r.capacity
    unfold slot
    split <;> omega
  · rw [hsize]
    change q.size - n < r.capacity
    omega
  · rw [hsize, hslot _ (by omega), Nat.add_sub_cancel' hn]
    exact hw
  · intro k hk
    rw [hsize] at hk
    rw [hslot _ (by omega), Bytes.at?_extract, Nat.min_self, if_pos hk]
    exact h.at_eq (n + k) (by omega)

theorem slices_of_le {r : Ring} {n : Nat} (hin : r.read + n ≤ r.capacity) :
    r.slices n = (r.storage.extract r.read (r.read + n), .empty) := by
  rw [slices, if_neg (by omega)]

theorem size_slices {r : Ring} {n : Nat} (hread : r.read < r.capacity) (hn : n ≤ r.capacity) :
    ((r.slices n).1 ++ (r.slices n).2).size = n := by
  unfold slices capacity at *
  dsimp only
  split
  all_goals
    simp only [ByteArray.size_append, ByteArray.size_extract, ByteArray.size_empty]
    omega

theorem at?_slices {r : Ring} {n k : Nat} (hread : r.read < r.capacity) (hn : n ≤ r.capacity)
    (hk : k < n) :
    Bytes.at? ((r.slices n).1 ++ (r.slices n).2) k = Bytes.at? r.storage (r.slot k) := by
  unfold slices
  dsimp only
  split
  · next htail =>
    have hfront : (r.storage.extract r.read r.capacity).size = r.capacity - r.read := by
      rw [ByteArray.size_extract]
      unfold capacity
      omega
    rw [Bytes.at?_append, hfront, Bytes.at?_extract, Bytes.at?_extract]
    by_cases hkt : k < r.capacity - r.read
    · have hin : k < min r.capacity r.storage.size - r.read := by
        unfold capacity at *
        omega
      rw [if_pos hkt, if_pos hin, slot, if_pos (by omega)]
    · have hin : k - (r.capacity - r.read) <
          min (n - (r.capacity - r.read)) r.storage.size - 0 := by
        unfold capacity at *
        omega
      rw [if_neg hkt, if_pos hin, slot, if_neg (by omega)]
      congr 1
      omega
  · next htail =>
    have hin : k < min (r.read + n) r.storage.size - r.read := by
      unfold capacity at *
      omega
    rw [ByteArray.append_empty, Bytes.at?_extract, if_pos hin, slot, if_pos (by omega)]

theorem Holds.slices_eq {r : Ring} {q : ByteArray} (h : r.Holds q) (hread : r.read < r.capacity)
    (hsize : q.size ≤ r.capacity) {n : Nat} (hn : n ≤ q.size) :
    (r.slices n).1 ++ (r.slices n).2 = q.extract 0 n := by
  have hslices := size_slices hread (Nat.le_trans hn hsize)
  -- both sides end behind `n` bytes, and before that both have the byte in its slot
  apply Bytes.ext_at?
  intro k
  rw [Bytes.at?_extract, Nat.zero_add, Nat.sub_zero, Nat.min_eq_left hn]
  by_cases hk : k < n
  · rw [if_pos hk, at?_slices hread (Nat.le_trans hn hsize) hk, h k (Nat.lt_of_lt_of_le hk hn)]
  · rw [if_neg hk, Bytes.at?_eq_none (by omega)]

theorem Queues.slices_eq {r : Ring} {q : ByteArray} (h : r.Queues q) {n : Nat} (hn : n ≤ q.size) :
    (r.slices n).1 ++ (r.slices n).2 = q.extract 0 n :=
  h.holds.slices_eq h.read_lt (Nat.le_of_lt h.size_lt) hn

theorem add_mod_eq {a c k : Nat} (ha : a < c) (hk : k ≤ c) :
    (a + k) % c = if a + k < c then a + k else a + k - c := by
  split
  · next hlt => exact Nat.mod_eq_of_lt hlt
  · next hge => rw [Nat.mod_eq_sub_mod (Nat.le_of_not_lt hge), Nat.mod_eq_of_lt (by omega)]

theorem slot_eq_mod {r : Ring} {n : Nat} (hread : r.read < r.capacity) (hn : n ≤ r.capacity) :
    (r.read + n) % r.capacity = r.slot n :=
  add_mod_eq hread hn

theorem advance_of_le {r : Ring} {n : Nat} (hread : r.read < r.capacity) (hn : n ≤ r.capacity) :
    r.advance n = (.ok (), { r with read := r.slot n }) := by
  rw [Ring.advance, if_neg (by omega)]
  have hnext : (if r.capacity < r.read + n then r.read + n - r.capacity
      else (r.read + n) % r.capacity) = r.slot n := by
    split
    · next hover => exact (if_neg (by omega)).symm
    · exact slot_eq_mod hread hn
  dsimp only
  rw [hnext]

theorem take_of_le {r : Ring} {n : Nat} (hread : r.read < r.capacity)
    (hin : r.read + n ≤ r.capacity) :
    r.take n = (.ok (r.storage.extract r.read (r.read + n)), { r with read := r.slot n }) := by
  rw [Ring.take, if_neg (by omega), slot_eq_mod hread (by omega)]

theorem Queues.advance {r : Ring} {q : ByteArray} (h : r.Queues q) {n : Nat} (hn : n ≤ q.size) :
    r.advance n = (.ok (), { r with read := r.slot n }) :=
  advance_of_le h.read_lt (Nat.le_trans hn (Nat.le_of_lt h.size_lt))

theorem Queues.take {r : Ring} {q : ByteArray} (h : r.Queues q) {n : Nat} (hn : n ≤ q.size)
    (hin : r.read + n ≤ r.capacity) :
    r.take n = (.ok (q.extract 0 n), { r with read := r.slot n }) := by
  have hslices := h.slices_eq hn
  rw [slices_of_le hin, ByteArray.append_empty] at hslices
  dsimp only at hslices
  rw [take_of_le h.read_lt hin, hslices]

theorem push_of_fits {r : Ring} {data : ByteArray} (hfits : data.size ≤ r.sizeToWrite)
    (p : Profile) : r.push p data = (.ok (), r.put data) := by
  unfold Ring.push
  rw [if_neg (Nat.not_lt_of_le hfits)]

theorem push_of_room {r : Ring} {data : ByteArray} (hroom : data.size < r.sizeToWrite)
    (p : Profile) : r.push p data = (.ok (), r.put data) :=
  push_of_fits (Nat.le_of_lt hroom) p

theorem Queues.peek {r : Ring} {q : ByteArray} (h : r.Queues q) {n : Nat} (hn : n ≤ q.size) :
    r.peek n = .ok (r.slices n) := by
  have hs := h.size_lt
  rw [Ring.peek, if_neg (by omega)]

theorem Queues.contents_eq {r : Ring} {q : ByteArray} (h : r.Queues q) : r.contents = q := by
  rw [contents, h.sizeToRead_eq]
  refine (h.slices_eq (Nat.le_refl _)).trans ?_
  exact ByteArray.extract_zero_size

def Sound (r : Ring) : Prop := r.Queues r.contents

/-- What lies between two cursors that are in the ring is a queue. -/
theorem sound_of_lt {r : Ring} (hread : r.read < r.capacity) (hwrite : r.write < r.capacity) :
    r.Sound := by
  have hcount : r.sizeToRead < r.capacity ∧ r.write = r.slot r.sizeToRead := by
    unfold slot sizeToRead sizeToWrite
    split <;> split <;> try split
    all_goals omega
  have hsize : r.contents.size = r.sizeToRead := size_slices hread (Nat.le_of_lt hcount.1)
  refine ⟨hread, hsize ▸ hcount.1, hsize ▸ hcount.2, fun k hk => ?_⟩
  rw [hsize] at hk
  exact (at?_slices hread (Nat.le_of_lt hcount.1) hk).symm

theorem Queues.sound {r : Ring} {q : ByteArray} (h : r.Queues q) : r.Sound := by
  rw [Sound, h.contents_eq]
  exact h

theorem Sound.put {r : Ring} {data : ByteArray} (h : r.Sound) (hroom : data.size < r.sizeToWrite) :
    (r.put data).Sound ∧ (r.put data).contents = r.contents ++ data ∧
      (r.put data).capacity = r.capacity := by
  rw [Queues.sizeToWrite_eq h] at hroom
  have hput := Queues.put h (show r.contents.size + data.size < r.capacity by omega)
  exact ⟨hput.sound, hput.contents_eq, capacity_put data (Queues.write_lt h) (by omega)⟩

theorem Sound.put_empty {r : Ring} (h : r.Sound) : r.put .empty = r := by
  have hwrite := Queues.write_lt h
  have hstorage : Bytes.overwrite r.storage r.write .empty = r.storage := by
    rw [Bytes.overwrite_eq, ByteArray.append_empty, ByteArray.size_empty, Nat.add_zero,
      Bytes.extract_append_extract_rest r.storage (Nat.zero_le _), ByteArray.extract_zero_size]
  unfold Ring.put
  dsimp only
  rw [if_neg (by rw [ByteArray.size_empty]; omega), hstorage, ByteArray.size_empty, Nat.add_zero,
    Nat.mod_eq_of_lt hwrite]

theorem Sound.peek {r : Ring} (h : r.Sound) {n : Nat} (hn : n ≤ r.sizeToRead) :
    ∃ a b, r.peek n = .ok (a, b) ∧ a ++ b = r.contents.extract 0 n := by
  rw [Queues.sizeToRead_eq h] at hn
  exact ⟨_, _, Queues.peek h hn, Queues.slices_eq h hn⟩

theorem Sound.advance {r : Ring} (h : r.Sound) {n : Nat} (hn : n ≤ r.sizeToRead) :
    ∃ r', r.advance n = (.ok (), r') ∧ r'.Sound ∧
      r'.contents = r.contents.extract n r.contents.size ∧ r'.capacity = r.capacity := by
  rw [Queues.sizeToRead_eq h] at hn
  have hdrop := Queues.drop h hn
  exact ⟨_, Queues.advance h hn, hdrop.sound, hdrop.contents_eq, rfl⟩

theorem Sound.advance_front {r : Ring} (h : r.Sound) {front : ByteArray}
    (hle : front.size ≤ r.sizeToRead) (hfront : r.contents.extract 0 front.size = front) :
    ∃ r', r.advance front.size = (.ok (), r') ∧ r'.Sound ∧ r.contents = front ++ r'.contents ∧
      r'.capacity = r.capacity := by
  obtain ⟨r', hadvance, hsound, hcontents, hcap⟩ := h.advance hle
  rw [Queues.sizeToRead_eq h] at hle
  have hsplit := ByteArray.extract_eq_extract_append_extract (a := r.contents)
    front.size (Nat.zero_le _) hle
  rw [ByteArray.extract_zero_size, hfront, ← hcontents] at hsplit
  exact ⟨r', hadvance, hsound, hsplit, hcap⟩

theorem Queues.reset {r : Ring} {q : ByteArray} (h : r.Queues q) : r.reset.Queues .empty := by
  have hpos : 0 < r.capacity := Nat.lt_of_le_of_lt (Nat.zero_le _) h.read_lt
  exact ⟨hpos, hpos, (if_pos hpos).symm, fun k hk => absurd hk (Nat.not_lt_zero k)⟩

end Ring

inductive RingOp where
  | push (data : ByteArray)
  | peek (n : Nat)
  | advance (n : Nat)
  | take (n : Nat)
  | reset

namespace RingOp

def Allowed (r : Ring) : RingOp → Prop
  | push data => data.size < r.sizeToWrite
  | peek n => n ≤ r.sizeToRead
  | advance n => n ≤ r.sizeToRead
  | take n => n ≤ r.sizeToRead ∧ r.read + n ≤ r.capacity
  | reset => True

/-- The bytes that an operation gives, and the ring after it. The two pieces of a peek are given
one behind the other. -/
def perform (p : Profile) (r : Ring) : RingOp → Outcome RingOverflow ByteArray × Ring
  | push data =>
      match r.push p data with
      | (o, r) => (o.map fun () => .empty, r)
  | peek n =>
      match r.peek n with
      | .ok (a, b) => (.ok (a ++ b), r)
      | .error v => (.panicked v, r)
  | advance n =>
      match r.advance n with
      | (.ok (), r) => (.ok .empty, r)
      | (.error v, r) => (.panicked v, r)
  | take n =>
      match r.take n with
      | (.ok b, r) => (.ok b, r)
      | (.error v, r) => (.panicked v, r)
  | reset => (.ok .empty, r.reset)

def answer (q : ByteArray) : RingOp → ByteArray
  | peek n | take n => q.extract 0 n
  | push _ | advance _ | reset => .empty

def next (q : ByteArray) : RingOp → ByteArray
  | push data => q ++ data
  | peek _ => q
  | advance n | take n => q.extract n q.size
  | reset => .empty

/-- One operation does the same to a ring and to its queue. -/
theorem perform_queues {r : Ring} {q : ByteArray} (h : r.Queues q) {op : RingOp}
    (hop : op.Allowed r) (p : Profile) :
    (op.perform p r).1 = .ok (op.answer q) ∧ (op.perform p r).2.Queues (op.next q) ∧
      (op.perform p r).2.capacity = r.capacity := by
  have hs := h.size_lt
  have hread := h.sizeToRead_eq
  have hwrite := h.sizeToWrite_eq
  cases op with
  | push data =>
    have hroom : q.size + data.size < r.capacity := by
      unfold Allowed at hop
      omega
    rw [perform, Ring.push_of_room hop p]
    exact ⟨rfl, h.put hroom, Ring.capacity_put data h.write_lt (by omega)⟩
  | peek n =>
    rw [Allowed, hread] at hop
    rw [perform, h.peek hop]
    exact ⟨congrArg Outcome.ok (h.slices_eq hop), h, rfl⟩
  | advance n =>
    rw [Allowed, hread] at hop
    rw [perform, h.advance hop]
    exact ⟨rfl, h.drop hop, rfl⟩
  | take n =>
    rw [Allowed, hread] at hop
    rw [perform, h.take hop.1 hop.2]
    exact ⟨rfl, h.drop hop.1, rfl⟩
  | reset => exact ⟨rfl, h.reset, rfl⟩

end RingOp

inductive Ring.Runs (p : Profile) (r : Ring) : List RingOp → Ring → Prop where
  | nil : Runs p r [] r
  | snoc {ops : List RingOp} {s : Ring} {op : RingOp} (h : Runs p r ops s) (hop : op.Allowed s) :
      Runs p r (ops ++ [op]) (op.perform p s).2

def RingOp.queue (ops : List RingOp) : ByteArray := ops.foldl next .empty

theorem Ring.Runs.queues {p : Profile} {r s : Ring} {ops : List RingOp} (h : Ring.Runs p r ops s)
    (hr : r.Queues .empty) : s.Queues (RingOp.queue ops) ∧ s.capacity = r.capacity := by
  induction h with
  | nil => exact ⟨hr, rfl⟩
  | snoc _ hop ih =>
    obtain ⟨-, hqueues, hcap⟩ := RingOp.perform_queues ih.1 hop p
    rw [RingOp.queue, List.foldl_append]
    exact ⟨hqueues, hcap.trans ih.2⟩

/-- Whatever is done with a ring within the bounds it tells, it behaves like a queue of bytes. -/
theorem ring_refines_queue {p : Profile} {capacity : Nat} {r s : Ring} {ops : List RingOp}
    (hnew : Ring.new capacity = .ok r) (hrun : Ring.Runs p r ops s) :
    s.sizeToRead = (RingOp.queue ops).size ∧
    s.sizeToWrite + (RingOp.queue ops).size = capacity ∧
    (s.isEmpty = true ↔ RingOp.queue ops = .empty) ∧
    ∀ op : RingOp, op.Allowed s → (op.perform p s).1 = .ok (op.answer (RingOp.queue ops)) := by
  obtain ⟨hcap, hempty⟩ := Ring.queues_new hnew
  obtain ⟨h, hcap'⟩ := hrun.queues hempty
  have hs := h.size_lt
  refine ⟨h.sizeToRead_eq, ?_, h.isEmpty_iff, ?_⟩
  · rw [h.sizeToWrite_eq]
    omega
  · intro op hop
    exact (RingOp.perform_queues h hop p).1

theorem ring_refines_queue_wrapped :
    ∃ r s : Ring, Ring.new 4 = .ok r ∧
      Ring.Runs .checked r [.push ⟨#[1, 2, 3]⟩, .advance 2, .push ⟨#[4, 5]⟩] s ∧
      s.sizeToRead = 3 ∧ ((RingOp.peek 3).perform .checked s).1 = .ok ⟨#[3, 4, 5]⟩ := by
  obtain ⟨r, hr⟩ : ∃ r, Ring.new 4 = .ok r := ⟨_, Ring.new_eq (by decide) (by decide)⟩
  -- each operation is allowed because of what is known about the run up to it
  have run0 : Ring.Runs .checked r [] r := .nil
  have hpush : (RingOp.push ⟨#[1, 2, 3]⟩).Allowed r := by
    have hroom := (ring_refines_queue hr run0).2.1
    change _ + 0 = 4 at hroom
    change 3 < r.sizeToWrite
    omega
  obtain ⟨s, run1⟩ : ∃ s, Ring.Runs .checked r [.push ⟨#[1, 2, 3]⟩] s := ⟨_, run0.snoc hpush⟩
  have hadvance : (RingOp.advance 2).Allowed s := by
    have hread := (ring_refines_queue hr run1).1
    change _ = 3 at hread
    change 2 ≤ s.sizeToRead
    omega
  obtain ⟨t, run2⟩ : ∃ t, Ring.Runs .checked r [.push ⟨#[1, 2, 3]⟩, .advance 2] t :=
    ⟨_, run1.snoc hadvance⟩
  have hpush' : (RingOp.push ⟨#[4, 5]⟩).Allowed t := by
    have hroom := (ring_refines_queue hr run2).2.1
    change _ + 1 = 4 at hroom
    change 2 < t.sizeToWrite
    omega
  have run3 := run2.snoc hpush'
  obtain ⟨hread, -, -, hanswer⟩ := ring_refines_queue hr run3
  exact ⟨r, _, hr, run3, hread, hanswer (.peek 3) (Nat.le_of_eq hread.symm)⟩

end TraceCapture
