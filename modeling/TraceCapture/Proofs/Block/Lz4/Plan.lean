import Mathlib.Algebra.GroupWithZero.Nat
import TraceCapture.Block.Lz4.Decode
import TraceCapture.Block.Lz4.Plan

set_option autoImplicit false

namespace TraceCapture.Lz4

def Step.stop (s : Step) (i : Nat) : Nat := i + s.literals + s.length

/-- A step at index `i` of `b` whose match repeats the bytes `offset` before it. -/
structure Step.Repeats (b : ByteArray) (i : Nat) (s : Step) : Prop where
  offset_pos : 0 < s.offset
  offset_le : s.offset ≤ maxOffset
  offset_le_index : s.offset ≤ i + s.literals
  minMatch_le : minMatch ≤ s.length
  stop_le : s.stop i ≤ b.size
  agree : ∀ k, k < s.length →
    byteAt b (i + s.literals + k) = byteAt b (i + s.literals + k - s.offset)

inductive Covers (b : ByteArray) : Nat → List Step → Prop where
  | nil {i : Nat} (h : i ≤ b.size) : Covers b i []
  | cons {i : Nat} {s : Step} {steps : List Step} (h : s.Repeats b i)
      (rest : Covers b (s.stop i) steps) : Covers b i (s :: steps)

theorem or_mul_two_pow {a i : Nat} (h : a < 2 ^ i) (b : Nat) : a ||| b * 2 ^ i = a + 2 ^ i * b := by
  rw [Nat.mul_comm, Nat.or_comm, ← Nat.two_pow_add_eq_or_of_lt h, Nat.add_comm]

theorem toNat_wordAt (b : ByteArray) (i : Nat) : (wordAt b i).toNat =
    (byteAt b i).toNat + 2 ^ 8 * (byteAt b (i + 1)).toNat + 2 ^ 16 * (byteAt b (i + 2)).toNat +
      2 ^ 24 * (byteAt b (i + 3)).toNat := by
  have h0 := (byteAt b i).toNat_lt
  have h1 := (byteAt b (i + 1)).toNat_lt
  have h2 := (byteAt b (i + 2)).toNat_lt
  have shift : ∀ c : UInt8, ∀ k, k ≤ 24 → c.toNat * 2 ^ k % 2 ^ 32 = c.toNat * 2 ^ k := by
    intro c k hk
    apply Nat.mod_eq_of_lt
    calc c.toNat * 2 ^ k < 2 ^ 8 * 2 ^ k :=
          Nat.mul_lt_mul_of_pos_right c.toNat_lt (Nat.two_pow_pos k)
      _ ≤ 2 ^ 8 * 2 ^ 24 := Nat.mul_le_mul_left _ (Nat.pow_le_pow_right (by decide) hk)
  unfold wordAt
  simp only [UInt32.toNat_or, UInt32.toNat_shiftLeft, UInt8.toNat_toUInt32, Nat.shiftLeft_eq]
  change ((_ ||| _ * 2 ^ 8 % 2 ^ 32) ||| _ * 2 ^ 16 % 2 ^ 32) ||| _ * 2 ^ 24 % 2 ^ 32 = _
  rw [shift _ _ (by decide), shift _ _ (by decide), shift _ _ (by decide),
    or_mul_two_pow h0, or_mul_two_pow (i := 16) (by omega), or_mul_two_pow (i := 24) (by omega)]

theorem byteAt_of_wordAt {b : ByteArray} {i j : Nat} (h : wordAt b i = wordAt b j) {k : Nat}
    (hk : k < 4) : byteAt b (i + k) = byteAt b (j + k) := by
  have hw := congrArg UInt32.toNat h
  rw [toNat_wordAt, toNat_wordAt] at hw
  have lt : ∀ l, (byteAt b l).toNat < 256 := fun l => (byteAt b l).toNat_lt
  have i0 := lt i
  have i1 := lt (i + 1)
  have i2 := lt (i + 2)
  have j0 := lt j
  have j1 := lt (j + 1)
  have j2 := lt (j + 2)
  apply UInt8.toNat_inj.mp
  match k, hk with
  | 0, _ =>
    rw [Nat.add_zero, Nat.add_zero]
    omega
  | 1, _ => omega
  | 2, _ => omega
  | 3, _ => omega

theorem agreement_bounds {b : ByteArray} {i : Nat} (seen n : Nat) (hi : i + matchMargin ≤ b.size) :
    i + (agreement b i seen n - n) + matchMargin ≤ b.size ∧
      ∀ k, k < agreement b i seen n - n → byteAt b (i + k) = byteAt b (seen + k) := by
  fun_induction agreement b i seen n with
  | case1 i seen n h ih =>
    have hle := le_agreement b (i + 1) (seen + 1) (n + 1)
    obtain ⟨hbound, hagree⟩ := ih (by omega)
    refine ⟨by omega, ?_⟩
    intro k hk
    cases k with
    | zero => exact h.2
    | succ k =>
      have := hagree k (by omega)
      rwa [Nat.add_assoc, Nat.add_comm 1 k, Nat.add_assoc, Nat.add_comm 1 k] at this
  | case2 i seen n h => exact ⟨by omega, fun k hk => absurd hk (by omega)⟩

theorem retreat_bounds (b : ByteArray) {start i : Nat} (n seen : Nat) (h : start ≤ i) :
    n ≤ retreat b start i n seen ∧ retreat b start i n seen ≤ n + seen ∧
      ∀ k, k < retreat b start i n seen - n →
        byteAt b (i - 1 - k) = byteAt b (seen - 1 - k) := by
  induction seen generalizing i n with
  | zero =>
    simp only [retreat]
    exact ⟨Nat.le_refl _, by omega, fun k hk => absurd hk (by omega)⟩
  | succ seen ih =>
    unfold retreat
    split
    · next hstep =>
      obtain ⟨hge, hle, hagree⟩ := ih (n := n + 1) (show start ≤ i - 1 by omega)
      refine ⟨by omega, by omega, ?_⟩
      intro k hk
      cases k with
      | zero => exact hstep.2
      | succ k =>
        have := hagree k (by omega)
        rwa [show i - 1 - (k + 1) = i - 1 - 1 - k by omega,
          show seen + 1 - 1 - (k + 1) = seen - 1 - k by omega]
    · exact ⟨Nat.le_refl _, by omega, fun k hk => absurd hk (by omega)⟩

theorem repeats_of_search {b : ByteArray} {table : Array Nat} {start i misses j seen : Nat}
    (hi : start ≤ i) (h : (search b table i misses).1 = some (j, seen)) :
    let back := retreat b start j 0 seen
    (⟨j - back - start, j - seen, agreement b (j + 4) (seen + 4) (4 + back)⟩ : Step).Repeats
      b start := by
  obtain ⟨hij, hsize, hseen, hoffset, hword⟩ := search_bounds h
  intro back
  have hstart : back + start ≤ 0 + j := retreat_le (by omega)
  obtain ⟨-, hback, hbefore⟩ := retreat_bounds b 0 seen (show start ≤ j by omega)
  change back ≤ 0 + seen at hback
  change ∀ k, k < back - 0 → _ at hbefore
  have hlength := le_agreement b (j + 4) (seen + 4) (4 + back)
  obtain ⟨hstop, hbehind⟩ := agreement_bounds (b := b) (i := j + 4) (seen + 4) (4 + back)
    (by unfold matchMargin searchMargin at *; omega)
  generalize agreement b (j + 4) (seen + 4) (4 + back) = length at hlength hstop hbehind ⊢
  have hindex : start + (j - back - start) = j - back := by omega
  exact {
    offset_pos := by dsimp only; omega
    offset_le := by dsimp only; omega
    offset_le_index := by dsimp only; omega
    minMatch_le := by dsimp only; unfold minMatch; omega
    stop_le := by
      unfold Step.stop matchMargin at *
      dsimp only
      omega
    agree := by
      intro k hk
      dsimp only at hk ⊢
      rw [hindex]
      -- before the four bytes that were found, inside them, and behind them
      by_cases h1 : k < back
      · have := hbefore (back - 1 - k) (by omega)
        rwa [show j - 1 - (back - 1 - k) = j - back + k by omega,
          show seen - 1 - (back - 1 - k) = j - back + k - (j - seen) by omega] at this
      by_cases h2 : k < back + 4
      · have := byteAt_of_wordAt hword (k := k - back) (by omega)
        rwa [show seen + (k - back) = j - back + k - (j - seen) by omega,
          show j + (k - back) = j - back + k by omega, eq_comm] at this
      · have := hbehind (k - (back + 4)) (by omega)
        rwa [show j + 4 + (k - (back + 4)) = j - back + k by omega,
          show seen + 4 + (k - (back + 4)) = j - back + k - (j - seen) by omega] at this }

theorem planFrom_covers {b : ByteArray} (table : Array Nat) {start i : Nat} (steps : Array Step)
    (hi : start ≤ i) (hsize : start ≤ b.size) :
    ∃ new, (planFrom b table start i steps).toList = steps.toList ++ new ∧ Covers b start new := by
  fun_induction planFrom b table start i steps with
  | case1 table start i steps table' h => exact ⟨[], by rw [List.append_nil], .nil hsize⟩
  | case2 table start i steps j seen table' h back length stop table'' ih =>
    have hfound : (search b table i 0).1 = some (j, seen) := congrArg Prod.fst h
    obtain ⟨hij, -⟩ := search_bounds hfound
    have hstep := repeats_of_search hi hfound
    have hstop : Step.stop ⟨j - back - start, j - seen, length⟩ start = stop := by
      have hstart : back + start ≤ 0 + j := retreat_le (by omega)
      unfold Step.stop
      dsimp only
      omega
    obtain ⟨new, hnew, hcovers⟩ := ih (Nat.le_refl _) (hstop ▸ hstep.stop_le)
    refine ⟨⟨j - back - start, j - seen, length⟩ :: new, ?_, .cons hstep (hstop ▸ hcovers)⟩
    rw [hnew, Array.toList_push, List.append_assoc]
    rfl

theorem plan_covers (b : ByteArray) : Covers b 0 (plan b).toList := by
  obtain ⟨new, hnew, hcovers⟩ :=
    planFrom_covers (b := b) ((Array.replicate tableSize 0).setIfInBounds (slot b 0) 0) #[]
      (Nat.zero_le 1) (Nat.zero_le _)
  rw [plan, hnew]
  exact hcovers

end TraceCapture.Lz4
