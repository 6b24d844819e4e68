import TraceCapture.Proofs.Ring.PhysicalEnd

set_option autoImplicit false

namespace TraceCapture

namespace Ring

/-- What the guards say of `n` bytes from the read cursor on is so wherever they say anything:
whether these are more than lie in front of the physical end, and by how many. -/
structure GuardsExact (p : Profile) (r : Ring) (n : Nat) : Prop where
  overflows_iff : ∀ b, r.overflows p n = .ok b → (b = true ↔ r.capacity - r.read < n)
  overflowsBy_eq : ∀ k, r.overflowsBy p n = .ok k →
    (k : Int) = max 0 ((r.read : Int) + n - r.capacity)

variable {p : Profile} {capacity n : Nat} {r : Ring}

theorem InBounds.guardsExact_of_lt (h : r.InBounds capacity) (hsum : r.read + n < Word.size) :
    r.GuardsExact p n := by
  have hread := h.read_lt
  have hcap := h.capacity_eq
  constructor
  · intro b hb
    rw [overflows_of_lt hsum] at hb
    cases hb
    rw [decide_eq_true_iff]
    omega
  · intro k hk
    rw [overflowsBy_of_lt hsum] at hk
    cases hk
    omega

theorem guards_checked_of_le (hsum : Word.size ≤ r.read + n) :
    r.overflows .checked n = .error .additionOverflow ∧
      r.overflowsBy .checked n = .error .additionOverflow := by
  rw [overflows, overflowsBy, Word.add_checked_of_le hsum]
  exact ⟨rfl, rfl⟩

/-- A sum that wrapped is below the cursor, so that nothing seems to lie across the end. -/
theorem InBounds.guards_unchecked_of_le (h : r.InBounds capacity) (hread : r.read < Word.size)
    (hn : n < Word.size) (hsum : Word.size ≤ r.read + n) :
    r.overflows .unchecked n = .ok false ∧ r.overflowsBy .unchecked n = .ok 0 := by
  have hcursor := h.read_lt
  have hcap := h.capacity_eq
  have hbelow : ¬ r.capacity < r.read + n - Word.size := by omega
  have hnone : r.read + n - Word.size - r.capacity = 0 := by omega
  rw [overflows, overflowsBy, Word.add_unchecked_of_le hread hn hsum]
  simp only [Except.map, decide_eq_false hbelow, hnone, and_self]

theorem Reachable.capacity_lt (h : r.Reachable p capacity) : capacity < Word.size :=
  Nat.lt_trans (new_eq_ok_iff.mp h.new_eq_ok).2 (by decide)

theorem Reachable.read_lt (h : r.Reachable p capacity) : r.read < Word.size :=
  Nat.lt_trans h.inBounds.read_lt h.capacity_lt

/-- The guards of an unchecked build are wrong once the sum does not fit. -/
theorem Reachable.lt_of_guardsExact (h : r.Reachable p capacity) (hn : n < Word.size)
    (hexact : r.GuardsExact .unchecked n) : r.read + n < Word.size := by
  refine Nat.lt_of_not_le fun hsum => ?_
  have hlimit := h.capacity_lt
  have hread := h.read_lt
  have hcap := h.inBounds.capacity_eq
  have hfalse := (h.inBounds.guards_unchecked_of_le hread hn hsum).1
  have hacross : r.capacity - r.read < n := by omega
  exact Bool.false_ne_true ((hexact.overflows_iff false hfalse).mpr hacross)

theorem Reachable.guardsExact_checked (h : r.Reachable p capacity) : r.GuardsExact .checked n := by
  rcases Nat.lt_or_ge (r.read + n) Word.size with hsum | hsum
  · exact h.inBounds.guardsExact_of_lt hsum
  · obtain ⟨hflag, hcount⟩ := guards_checked_of_le hsum
    constructor
    · intro b hb
      rw [hflag] at hb
      cases hb
    · intro k hk
      rw [hcount] at hk
      cases hk

theorem guards_agree (hsum : r.read + n < Word.size) :
    ∃ b k, r.overflows p n = .ok b ∧ r.overflowsBy p n = .ok k ∧ (b = true ↔ 0 < k) := by
  refine ⟨_, _, overflows_of_lt hsum, overflowsBy_of_lt hsum, ?_⟩
  rw [decide_eq_true_iff]
  omega

theorem take_error_iff : (∃ v, (r.take n).1 = .error v) ↔ r.capacity < r.read + n := by
  unfold take
  dsimp only
  split
  · next hacross => exact iff_of_true ⟨_, rfl⟩ hacross
  · next hin =>
    refine iff_of_false ?_ hin
    rintro ⟨v, hv⟩
    cases hv

end Ring

/-- The guards of the physical end are exact wherever they answer, with one exception: if the sum of
the cursor and the size does not fit into 64 bits, both guards of an unchecked build say that
nothing reaches across, though most of it would. A checked build does not answer then. The guards
never contradict each other, and for the sizes that data can have they answer and tell which takes
are refused. -/
theorem guards_are_exact_while_sum_fits {p : Profile} {capacity : Nat} {r : Ring}
    (hr : r.Reachable p capacity) {n : Nat} (hn : n < Word.size) :
    (r.GuardsExact p n ↔ p = .checked ∨ r.read + n < Word.size) ∧
    (p = .unchecked ∨ r.read + n < Word.size →
      ∃ b k, r.overflows p n = .ok b ∧ r.overflowsBy p n = .ok k ∧ (b = true ↔ 0 < k)) ∧
    (Word.size ≤ r.read + n → capacity < r.read + n ∧
      (p = .checked → r.overflows p n = .error .additionOverflow ∧
        r.overflowsBy p n = .error .additionOverflow) ∧
      (p = .unchecked → r.overflows p n = .ok false ∧ r.overflowsBy p n = .ok 0)) ∧
    (n < Bytes.bufferLimit →
      ∃ b, r.overflows p n = .ok b ∧ (b = true ↔ ∃ v, (r.take n).1 = .error v)) := by
  have h := hr.inBounds
  have hwrapped : Word.size ≤ r.read + n →
      r.overflows .unchecked n = .ok false ∧ r.overflowsBy .unchecked n = .ok 0 :=
    h.guards_unchecked_of_le hr.read_lt hn
  refine ⟨⟨fun hexact => ?_, ?_⟩, ?_, fun hsum => ⟨?_, ?_, ?_⟩, fun hdata => ?_⟩
  · cases p with
    | checked => exact .inl rfl
    | unchecked => exact .inr (hr.lt_of_guardsExact hn hexact)
  · rintro (rfl | hsum)
    · exact hr.guardsExact_checked
    · exact h.guardsExact_of_lt hsum
  · intro hanswers
    rcases Nat.lt_or_ge (r.read + n) Word.size with hsum | hsum
    · exact Ring.guards_agree hsum
    · obtain rfl := hanswers.resolve_right (Nat.not_lt_of_le hsum)
      obtain ⟨hflag, hcount⟩ := hwrapped hsum
      exact ⟨false, 0, hflag, hcount, by decide⟩
  · exact Nat.lt_of_lt_of_le hr.capacity_lt hsum
  · rintro rfl
    exact Ring.guards_checked_of_le hsum
  · rintro rfl
    exact hwrapped hsum
  · refine ⟨_, Ring.overflows_of_lt (hr.read_add_lt hdata), ?_⟩
    rw [decide_eq_true_iff, Ring.take_error_iff]

theorem reachable_oneUnread_unchecked : oneUnread.Reachable .unchecked 4 :=
  .call (.op (.advance 2)) (.call (.op (.push ⟨#[1, 2, 3]⟩))
    (.new (Ring.new_eq (by decide) (by decide))))

theorem guards_are_exact_while_sum_fits_behind_two_bytes :
    oneUnread.Reachable .unchecked 4 ∧ 3 < Word.size ∧ Word.max < Word.size ∧
      oneUnread.GuardsExact .unchecked 3 ∧ oneUnread.overflows .unchecked 3 = .ok true ∧
      (∃ v, (oneUnread.take 3).1 = .error v) ∧
      oneUnread.overflows .checked Word.max = .error .additionOverflow ∧
      oneUnread.overflows .unchecked Word.max = .ok false := by
  obtain ⟨hexact, -, -, hdata⟩ :=
    guards_are_exact_while_sum_fits reachable_oneUnread_unchecked (n := 3) (by decide)
  obtain ⟨-, -, hvast, -⟩ :=
    guards_are_exact_while_sum_fits reachable_oneUnread (n := Word.max) (by decide)
  obtain ⟨-, -, hvast', -⟩ :=
    guards_are_exact_while_sum_fits reachable_oneUnread_unchecked (n := Word.max) (by decide)
  obtain ⟨b, hb, htake⟩ := hdata (by decide)
  have htrue : oneUnread.overflows .unchecked 3 = .ok true := rfl
  obtain rfl : true = b := Except.ok.inj (htrue.symm.trans hb)
  exact ⟨reachable_oneUnread_unchecked, by decide, by decide, hexact.mpr (.inr (by decide)), hb,
    htake.mp rfl, ((hvast (by decide)).2.1 rfl).1, ((hvast' (by decide)).2.2 rfl).1⟩

/-- Of the largest size only two bytes lie in front of the physical end, and both guards of an
unchecked build say that none lies across it. -/
theorem guards_miss_largest_size :
    oneUnread.Reachable .unchecked 4 ∧ oneUnread.capacity - oneUnread.read < Word.max ∧
      oneUnread.overflows .unchecked Word.max = .ok false ∧
      oneUnread.overflowsBy .unchecked Word.max = .ok 0 ∧
      (oneUnread.read : Int) + Word.max - oneUnread.capacity = 18446744073709551613 ∧
      ¬ oneUnread.GuardsExact .unchecked Word.max := by
  have hmore : oneUnread.capacity - oneUnread.read < Word.max := by decide
  obtain ⟨hnone, hcount⟩ := reachable_oneUnread_unchecked.inBounds.guards_unchecked_of_le
    (n := Word.max) (by decide) (by decide) (by decide)
  refine ⟨reachable_oneUnread_unchecked, hmore, hnone, hcount, by decide, fun hexact => ?_⟩
  exact Bool.false_ne_true ((hexact.overflows_iff false hnone).mpr hmore)

end TraceCapture
