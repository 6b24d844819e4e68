import TraceCapture.Proofs.Ring.Fifo

set_option autoImplicit false

namespace TraceCapture

inductive RingCall where
  | op (op : RingOp)
  | overflows (n : Nat)
  | overflowsBy (n : Nat)

namespace RingCall

def ending {α : Type} : Except Violation α → Outcome RingOverflow Unit
  | .ok _ => .ok ()
  | .error v => .panicked v

def outcome (p : Profile) (r : Ring) : RingCall → Outcome RingOverflow Unit
  | op call => (call.perform p r).1.map fun _ => ()
  | overflows n => ending (r.overflows p n)
  | overflowsBy n => ending (r.overflowsBy p n)

def perform (p : Profile) (r : Ring) : RingCall → Ring
  | op call => (call.perform p r).2
  | overflows _ | overflowsBy _ => r

end RingCall

namespace Ring

inductive Reachable (p : Profile) (capacity : Nat) : Ring → Prop where
  | new {r : Ring} (h : Ring.new capacity = .ok r) : Reachable p capacity r
  | call {r : Ring} (call : RingCall) (h : Reachable p capacity r) :
      Reachable p capacity (call.perform p r)

structure InBounds (capacity : Nat) (r : Ring) : Prop where
  capacity_eq : r.capacity = capacity
  read_lt : r.read < capacity
  write_lt : r.write < capacity

/-- `t` is `r` with `data` in the cells from the write cursor on, around the physical end if need
be, and with that cursor behind them. -/
structure Writes (r : Ring) (data : ByteArray) (t : Ring) : Prop where
  read_eq : t.read = r.read
  write_eq : t.write = (r.write + data.size) % r.capacity
  cell_eq : ∀ k, k < data.size →
    Bytes.at? t.storage ((r.write + k) % r.capacity) = Bytes.at? data k
  other_eq : ∀ j, (∀ k, k < data.size → (r.write + k) % r.capacity ≠ j) →
    Bytes.at? t.storage j = Bytes.at? r.storage j

variable {p : Profile} {capacity : Nat} {r : Ring}

theorem new_eq_ok_iff : (∃ r, Ring.new capacity = .ok r) ↔
    0 < capacity ∧ capacity < Bytes.bufferLimit := by
  refine ⟨fun ⟨r, h⟩ => ?_, fun ⟨hpos, hlt⟩ => ⟨_, new_eq hpos hlt⟩⟩
  unfold new at h
  split at h
  · cases h
  · next h0 =>
    unfold Bytes.reserve at h
    split at h
    · next hlt => exact ⟨Nat.pos_of_ne_zero h0, hlt⟩
    · cases h

theorem Reachable.new_eq_ok (h : r.Reachable p capacity) :
    ∃ first, Ring.new capacity = .ok first := by
  induction h with
  | new h => exact ⟨_, h⟩
  | call _ _ ih => exact ih

theorem InBounds.sizeToWrite (h : r.InBounds capacity) :
    1 ≤ r.sizeToWrite ∧ r.sizeToWrite ≤ capacity := by
  have hread := h.read_lt
  have hwrite := h.write_lt
  unfold Ring.sizeToWrite
  rw [h.capacity_eq]
  split
  · omega
  · split <;> omega

theorem InBounds.sizeToWrite_add_sizeToRead (h : r.InBounds capacity) :
    r.sizeToWrite + r.sizeToRead = capacity := by
  have hle := h.sizeToWrite.2
  rw [sizeToRead, h.capacity_eq]
  omega

theorem writes_put {data : ByteArray} (hw : r.write < r.capacity) (hd : data.size ≤ r.capacity) :
    r.Writes data (r.put data) := by
  refine ⟨read_put data, ?_, fun k hk => ?_, fun j hj => ?_⟩
  · rw [write_put data hw, add_mod_eq hw hd]
  · have hcell := add_mod_eq hw (k := k) (by omega)
    rw [at?_put data hw hd (Nat.mod_lt _ (by omega)), hcell]
    by_cases hin : r.write + k < r.capacity
    · rw [if_pos hin, if_neg (by omega), if_pos (by omega), Nat.add_sub_cancel_left]
    · rw [if_neg hin, if_pos (by omega)]
      congr 1
      omega
  · by_cases hin : j < r.capacity
    · -- a covered cell would be that of the byte written there
      have hcovered : ∀ k, k < data.size → (if r.write + k < r.capacity then r.write + k
          else r.write + k - r.capacity) ≠ j := by
        intro k hk
        rw [← add_mod_eq hw (by omega)]
        exact hj k hk
      have h1 : ¬ j + r.capacity < r.write + data.size := by
        intro hlt
        have hne := hcovered (j + r.capacity - r.write) (by omega)
        split at hne <;> omega
      have h2 : ¬ (r.write ≤ j ∧ j < r.write + data.size) := by
        rintro ⟨hle, hlt⟩
        have hne := hcovered (j - r.write) (by omega)
        split at hne <;> omega
      rw [at?_put data hw hd hin, if_neg h1, if_neg h2]
    · have hsize := capacity_put data hw hd
      unfold Ring.capacity at hsize hin
      rw [Bytes.at?_eq_none (by omega), Bytes.at?_eq_none (by omega)]

end Ring

namespace RingCall

variable {p : Profile} {capacity : Nat} {r : Ring}

/-- What a call may come to and leave: it is refused and nothing happens, it writes data that fit,
or it leaves the storage alone and the cursors in it. -/
inductive Effect (capacity : Nat) (r : Ring) (call : RingCall) (o : Outcome RingOverflow Unit)
    (t : Ring) : Prop where
  | refused (hcall : ∀ data, call = .op (.push data) → r.sizeToWrite < data.size)
      (ho : o ≠ .ok ()) (ht : t = r)
  | written (data : ByteArray) (hcall : call = .op (.push data))
      (hfits : data.size ≤ r.sizeToWrite) (ho : o = .ok ()) (ht : t = r.put data)
  | moved (hcall : ∀ data, call ≠ .op (.push data)) (ho : o = .ok ())
      (hstorage : t.storage = r.storage) (hread : t.read < capacity) (hwrite : t.write < capacity)

theorem Effect.of_panicked {call : RingCall} (hcall : ∀ data, call ≠ .op (.push data))
    (v : Violation) : Effect capacity r call (.panicked v) r :=
  .refused (fun data hdata => absurd hdata (hcall data)) (by rintro ⟨⟩) rfl

theorem effect_push (r : Ring) (p : Profile) (data : ByteArray) :
    Effect capacity r (.op (.push data)) ((op (.push data)).outcome p r)
      ((op (.push data)).perform p r) := by
  simp only [outcome, perform, RingOp.perform, Ring.push]
  split
  · next hfull =>
    have hover : ∀ d, RingCall.op (.push data) = .op (.push d) → r.sizeToWrite < d.size := by
      rintro d ⟨⟩
      exact hfull
    cases p <;> exact .refused hover (by rintro ⟨⟩) rfl
  · next hfits => exact .written data rfl (Nat.le_of_not_lt hfits) rfl rfl

theorem effect (h : r.InBounds capacity) (p : Profile) (call : RingCall) :
    Effect capacity r call (call.outcome p r) (call.perform p r) := by
  by_cases hpush : ∃ data, call = .op (.push data)
  · obtain ⟨data, rfl⟩ := hpush
    exact effect_push r p data
  have hcall : ∀ data, call ≠ .op (.push data) := fun data hdata => hpush ⟨data, hdata⟩
  have hcap := h.capacity_eq
  have hread := h.read_lt
  have hwrite := h.write_lt
  have hpos : 0 < r.capacity := by omega
  have hending : ∀ {α : Type} (e : Except Violation α), Effect capacity r call (ending e) r := by
    intro α e
    cases e with
    | ok => exact .moved hcall rfl rfl hread hwrite
    | error v => exact .of_panicked hcall v
  cases call with
  | overflows n => exact hending (r.overflows p n)
  | overflowsBy n => exact hending (r.overflowsBy p n)
  | op call =>
    simp only [outcome, perform]
    cases call with
    | push data => exact absurd rfl (hcall data)
    | peek n =>
      by_cases hover : r.capacity < n
      · simp only [RingOp.perform, Ring.peek, if_pos hover]
        exact .of_panicked hcall _
      · simp only [RingOp.perform, Ring.peek, if_neg hover]
        exact .moved hcall rfl rfl hread hwrite
    | advance n =>
      by_cases hover : r.capacity < n
      · simp only [RingOp.perform, Ring.advance, if_pos hover]
        exact .of_panicked hcall _
      · simp only [RingOp.perform, Ring.advance, if_neg hover]
        refine .moved hcall rfl rfl ?_ hwrite
        dsimp only
        split
        · omega
        · exact hcap ▸ Nat.mod_lt _ hpos
    | take n =>
      by_cases hacross : r.capacity < r.read + n
      · simp only [RingOp.perform, Ring.take, if_pos hacross]
        exact .of_panicked hcall _
      · simp only [RingOp.perform, Ring.take, if_neg hacross]
        exact .moved hcall rfl rfl (hcap ▸ Nat.mod_lt _ hpos) hwrite
    | reset => exact .moved hcall rfl rfl (hcap ▸ hpos) (hcap ▸ hpos)

end RingCall

namespace Ring

variable {p : Profile} {capacity : Nat} {r : Ring}

theorem InBounds.put {data : ByteArray} (h : r.InBounds capacity)
    (hfits : data.size ≤ r.sizeToWrite) :
    (r.put data).InBounds capacity ∧ r.Writes data (r.put data) := by
  have hd : data.size ≤ r.capacity := h.capacity_eq ▸ Nat.le_trans hfits h.sizeToWrite.2
  have hw : r.write < r.capacity := h.capacity_eq ▸ h.write_lt
  have hwrites := writes_put hw hd
  refine ⟨⟨(capacity_put data hw hd).trans h.capacity_eq, hwrites.read_eq ▸ h.read_lt, ?_⟩, hwrites⟩
  rw [hwrites.write_eq, ← h.capacity_eq]
  exact Nat.mod_lt _ (Nat.zero_lt_of_lt hw)

theorem InBounds.call (h : r.InBounds capacity) (p : Profile) (call : RingCall) :
    (call.perform p r).InBounds capacity := by
  cases RingCall.effect h p call with
  | refused _ _ ht =>
    rw [ht]
    exact h
  | written data _ hfits _ ht =>
    rw [ht]
    exact (h.put hfits).1
  | moved _ _ hstorage hread hwrite =>
    exact ⟨(congrArg ByteArray.size hstorage).trans h.capacity_eq, hread, hwrite⟩

theorem Reachable.inBounds (h : r.Reachable p capacity) : r.InBounds capacity := by
  induction h with
  | new h =>
    obtain ⟨hcap, hqueues⟩ := queues_new h
    exact ⟨hcap, hcap ▸ hqueues.read_lt, hcap ▸ hqueues.write_lt⟩
  | call call _ ih => exact ih.call p call

end Ring

/-- A ring can be had of each size that a buffer can have. Whatever it is asked for, also behind
refused calls: its cursors are in its storage, which keeps its size, the sums that it forms are
64-bit numbers for all sizes that data can have, and at least one byte and at most all are free. A
call that panics or fails leaves it as it was; a write does that exactly if it has more bytes than
are free, and otherwise covers the cells of its data; other calls leave the storage alone. -/
theorem ring_withstands_any_use (p : Profile) (capacity : Nat) :
    ((∃ r, Ring.new capacity = .ok r) ↔ 0 < capacity ∧ capacity < Bytes.bufferLimit) ∧
    ∀ r : Ring, r.Reachable p capacity →
      r.InBounds capacity ∧
      (∀ n < Bytes.bufferLimit, r.read + n < Word.size ∧ r.write + n < Word.size) ∧
      1 ≤ r.sizeToWrite ∧ r.sizeToWrite ≤ capacity ∧ r.sizeToWrite + r.sizeToRead = capacity ∧
      (∀ call : RingCall, call.outcome p r ≠ .ok () → call.perform p r = r) ∧
      (∀ data : ByteArray,
        ((RingCall.op (.push data)).outcome p r ≠ .ok () ↔ r.sizeToWrite < data.size) ∧
        (data.size ≤ r.sizeToWrite → r.Writes data ((RingCall.op (.push data)).perform p r))) ∧
      ∀ call : RingCall, (∀ data, call ≠ .op (.push data)) →
        (call.perform p r).storage = r.storage := by
  refine ⟨Ring.new_eq_ok_iff, fun r hr => ?_⟩
  have h := hr.inBounds
  have heffect := RingCall.effect h p
  refine ⟨h, fun n hn => ?_, h.sizeToWrite.1, h.sizeToWrite.2, h.sizeToWrite_add_sizeToRead,
    fun call hcall => ?_, fun data => ⟨?_, fun hfits => ?_⟩, fun call hcall => ?_⟩
  · have hlt := (Ring.new_eq_ok_iff.mp hr.new_eq_ok).2
    have hread := h.read_lt
    have hwrite := h.write_lt
    have htwice : Bytes.bufferLimit + Bytes.bufferLimit = Word.size := rfl
    omega
  · cases heffect call with
    | refused _ _ ht => exact ht
    | written _ _ _ ho | moved _ ho => exact absurd ho hcall
  · cases heffect (.op (.push data)) with
    | refused hfull ho => exact iff_of_true ho (hfull data rfl)
    | written d hd hfits ho =>
      cases hd
      exact iff_of_false (fun hne => hne ho) (Nat.not_lt_of_le hfits)
    | moved hne => exact absurd rfl (hne data)
  · cases heffect (.op (.push data)) with
    | refused hfull => exact absurd (hfull data rfl) (Nat.not_lt_of_le hfits)
    | written d hd _ _ ht =>
      cases hd
      rw [ht]
      exact (h.put hfits).2
    | moved hne => exact absurd rfl (hne data)
  · cases heffect call with
    | refused _ _ ht => exact congrArg Ring.storage ht
    | written data hdata => exact absurd hdata (hcall data)
    | moved _ _ hstorage => exact hstorage

def oneUnread : Ring :=
  (RingCall.op (.advance 2)).perform .checked
    ((RingCall.op (.push ⟨#[1, 2, 3]⟩)).perform .checked ⟨⟨#[0, 0, 0, 0]⟩, 0, 0⟩)

theorem reachable_oneUnread : oneUnread.Reachable .checked 4 :=
  .call _ (.call _ (.new (Ring.new_eq (by decide) (by decide))))

theorem ring_withstands_any_use_of_one_unread :
    oneUnread.Reachable .checked 4 ∧ oneUnread.sizeToWrite + oneUnread.sizeToRead = 4 ∧
      (RingCall.op (.take 3)).outcome .checked oneUnread = .panicked (.readAcrossEnd 3 2 4) ∧
      (RingCall.op (.take 3)).perform .checked oneUnread = oneUnread ∧
      (RingCall.op (.push ⟨#[4, 5, 6, 7]⟩)).outcome .checked oneUnread ≠ .ok () ∧
      oneUnread.Writes ⟨#[4, 5]⟩
        ((RingCall.op (.push ⟨#[4, 5]⟩)).perform .checked oneUnread) := by
  obtain ⟨-, hreached⟩ := ring_withstands_any_use .checked 4
  obtain ⟨-, -, -, -, hsum, hrefused, hwrite, -⟩ := hreached oneUnread reachable_oneUnread
  have hacross : (RingCall.op (.take 3)).outcome .checked oneUnread =
      .panicked (.readAcrossEnd 3 2 4) := by decide
  refine ⟨reachable_oneUnread, hsum, hacross, hrefused _ ?_, (hwrite _).1.mpr (by decide),
    (hwrite _).2 (by decide)⟩
  rw [hacross]
  rintro ⟨⟩

namespace Ring

variable {p : Profile} {capacity : Nat} {r : Ring}

theorem InBounds.sound (h : r.InBounds capacity) : r.Sound :=
  sound_of_lt (h.capacity_eq ▸ h.read_lt) (h.capacity_eq ▸ h.write_lt)

/-- The count of the bytes that are not read starts again where the ring is full. -/
theorem Sound.sizeToRead_put {data : ByteArray} (h : r.Sound) (hfits : data.size ≤ r.sizeToWrite) :
    (r.put data).sizeToRead = (r.sizeToRead + data.size) % r.capacity := by
  have hcount := Queues.sizeToRead_eq h
  have hfree := Queues.sizeToWrite_eq h
  have hsize := h.size_lt
  rcases Nat.lt_or_eq_of_le hfits with hroom | hfull
  · obtain ⟨hsound, hcontents, hcap⟩ := h.put hroom
    rw [Queues.sizeToRead_eq hsound, hcontents, ByteArray.size_append, hcount,
      Nat.mod_eq_of_lt (by omega)]
  · -- the write cursor comes to the read cursor
    have hwrite := write_put data (Queues.write_lt h)
    have hat := h.write_eq
    have hread := h.read_lt
    have hback : (r.put data).write = (r.put data).read := by
      rw [hwrite, read_put]
      unfold slot at hat
      split at hat <;> split <;> omega
    have hend : r.sizeToRead + data.size = r.capacity := by omega
    rw [hend, Nat.mod_self, sizeToRead, sizeToWrite, if_neg (by omega), if_pos hback, Nat.sub_self]

end Ring

/-- A write that fits lands right behind the bytes that are not read: one peek gives these and then
the written ones. If the write fills the ring the ring looks empty, and the peek is of all of it. -/
theorem write_lands_behind_unread {p : Profile} {capacity : Nat} {r : Ring}
    (hr : r.Reachable p capacity) {data : ByteArray} (hfits : data.size ≤ r.sizeToWrite) :
    ∃ t a b c d, r.push p data = (.ok (), t) ∧ t.read = r.read ∧
      t.sizeToRead = (r.sizeToRead + data.size) % capacity ∧
      r.peek r.sizeToRead = .ok (a, b) ∧ t.peek (r.sizeToRead + data.size) = .ok (c, d) ∧
      c ++ d = a ++ b ++ data ∧
      (data.size = r.sizeToWrite →
        t.isEmpty = true ∧ r.sizeToRead + data.size = capacity) := by
  have h := hr.inBounds
  have hput := (h.put hfits).1
  have hsum := h.sizeToWrite_add_sizeToRead
  have hsound := h.sound
  have hcount := Ring.Queues.sizeToRead_eq hsound
  have hread := hsound.sizeToRead_put hfits
  rw [h.capacity_eq] at hread
  have hholds : (r.put data).Holds (r.contents ++ data) := by
    refine hsound.holds.put hsound.read_lt hsound.size_lt hsound.write_eq ?_
    rw [h.capacity_eq, ← hcount]
    omega
  have hsize : (r.contents ++ data).size = r.sizeToRead + data.size := by
    rw [ByteArray.size_append, hcount]
  have hpieces : ((r.put data).slices (r.sizeToRead + data.size)).1 ++
      ((r.put data).slices (r.sizeToRead + data.size)).2 = r.contents ++ data := by
    rw [hholds.slices_eq (hput.capacity_eq ▸ hput.read_lt) (by rw [hput.capacity_eq]; omega)
      (Nat.le_of_eq hsize.symm), ← hsize, ByteArray.extract_zero_size]
  refine ⟨r.put data, _, _, _, _, Ring.push_of_fits hfits p, Ring.read_put data, hread, ?_, ?_,
    hpieces, fun hfull => ?_⟩
  · rw [Ring.peek, if_neg (by rw [h.capacity_eq]; omega)]
    rfl
  · rw [Ring.peek, if_neg (by rw [hput.capacity_eq]; omega)]
  · have hend : r.sizeToRead + data.size = capacity := by omega
    refine ⟨?_, hend⟩
    rw [Ring.isEmpty, hread, hend, Nat.mod_self]
    rfl

theorem write_lands_behind_one_unread :
    ∃ t c d, oneUnread.push .checked ⟨#[4, 5, 6]⟩ = (.ok (), t) ∧ t.read = 2 ∧
      t.isEmpty = true ∧ t.peek 4 = .ok (c, d) ∧ c ++ d = ⟨#[3, 4, 5, 6]⟩ := by
  have hfits : ByteArray.size ⟨#[4, 5, 6]⟩ ≤ oneUnread.sizeToWrite := by decide
  obtain ⟨t, a, b, c, d, hpush, hread, -, hbefore, hafter, hpieces, hfull⟩ :=
    write_lands_behind_unread reachable_oneUnread hfits
  have hpeek : oneUnread.peek oneUnread.sizeToRead = .ok (⟨#[3]⟩, .empty) := rfl
  rw [hpeek] at hbefore
  cases hbefore
  exact ⟨t, c, d, hpush, hread, (hfull (by decide)).1, hafter, hpieces⟩

end TraceCapture
