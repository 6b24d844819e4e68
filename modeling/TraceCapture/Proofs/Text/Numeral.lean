import Mathlib.Data.List.TakeWhile
import Mathlib.Data.Nat.Digits.Defs
import Mathlib.Tactic.Ring
import TraceCapture.Text.Blank
import TraceCapture.Text.Decimal

set_option autoImplicit false

namespace TraceCapture.Text

theorem ofDigits_concat (b : Nat) (ds : List Nat) (d value : Nat) :
    Nat.ofDigits b ((d :: ds).reverse ++ [value]) =
      Nat.ofDigits b (ds.reverse ++ [b * value + d]) := by
  simp only [List.reverse_cons, Nat.ofDigits_append, Nat.ofDigits_singleton, List.length_append,
    List.length_reverse, List.length_singleton, pow_succ]
  ring

def digitOf (c : Char) : Nat := c.toNat - 48

def Digits (word : List Char) (n : Nat) : Prop :=
  word ≠ [] ∧ (∀ c ∈ word, c.isDigit = true) ∧ n = Nat.ofDigits 10 (word.map digitOf).reverse

def Decimal (word : List Char) (n : Nat) : Prop :=
  Digits word n ∨ ∃ digits, word = '+' :: digits ∧ Digits digits n

def Denotes (value : String) (n : Nat) : Prop :=
  ∃ front word back, value.toList = front ++ word ++ back ∧ Decimal word n ∧
    (∀ c ∈ front, isBlank c = true) ∧ ∀ c ∈ back, isBlank c = true

theorem not_digits_of_plus {rest : List Char} {n : Nat} : ¬ Digits ('+' :: rest) n :=
  fun h => absurd (h.2.1 '+' List.mem_cons_self) (by decide)

theorem digitsValue?_eq_some_iff {m n : Nat} {cs : List Char} : digitsValue? m cs = some n ↔
    (∀ c ∈ cs, c.isDigit = true) ∧ n = Nat.ofDigits 10 ((cs.map digitOf).reverse ++ [m]) := by
  induction cs generalizing m with
  | nil =>
    rw [digitsValue?, List.map_nil, List.reverse_nil, List.nil_append, Nat.ofDigits_singleton,
      Option.some.injEq]
    exact ⟨fun h => ⟨nofun, h.symm⟩, fun h => h.2.symm⟩
  | cons c cs ih =>
    rw [digitsValue?, List.map_cons, ofDigits_concat, List.forall_mem_cons, and_assoc]
    split
    · next hc => exact ih.trans (iff_and_self.mpr fun _ => hc)
    · next hc => exact iff_of_false nofun fun h => hc h.1

theorem size?_of_ne_plus {c : Char} (hc : c ≠ '+') (rest : List Char) :
    size? (c :: rest) = (digitsValue? 0 (c :: rest)).filter (· < Word.size) := by
  unfold size?
  split
  · next h => cases h; exact absurd rfl hc
  · rfl

theorem filter_digitsValue?_eq_some_iff {word : List Char} {n : Nat} (hne : word ≠ []) :
    (digitsValue? 0 word).filter (· < Word.size) = some n ↔ Digits word n ∧ n < Word.size := by
  rw [Option.filter_eq_some_iff, digitsValue?_eq_some_iff, decide_eq_true_eq, Digits,
    Nat.ofDigits_append, Nat.ofDigits_singleton, Nat.mul_zero, Nat.add_zero]
  exact and_congr_left fun _ => (and_iff_right hne).symm

theorem size?_eq_some_iff {word : List Char} {n : Nat} :
    size? word = some n ↔ Decimal word n ∧ n < Word.size := by
  cases word with
  | nil =>
    refine iff_of_false nofun ?_
    rintro ⟨h | ⟨digits, h, -⟩, -⟩
    · exact h.1 rfl
    · cases h
  | cons c rest =>
    by_cases hc : c = '+'
    · subst hc
      have hplus : Decimal ('+' :: rest) n ↔ Digits rest n := by
        constructor
        · rintro (h | ⟨digits, h, hdigits⟩)
          · exact absurd h not_digits_of_plus
          · cases h
            exact hdigits
        · exact fun h => .inr ⟨rest, rfl, h⟩
      rw [hplus]
      cases rest with
      | nil => exact iff_of_false nofun fun h => h.1.1 rfl
      | cons d rest => exact filter_digitsValue?_eq_some_iff (List.cons_ne_nil d rest)
    · have hplain : Decimal (c :: rest) n ↔ Digits (c :: rest) n := by
        refine ⟨?_, .inl⟩
        rintro (h | ⟨digits, h, -⟩)
        · exact h
        · cases h
          exact absurd rfl hc
      rw [size?_of_ne_plus hc, hplain]
      exact filter_digitsValue?_eq_some_iff (List.cons_ne_nil c rest)

theorem dropWhile_blanks {blanks word : List Char} (hblanks : ∀ c ∈ blanks, isBlank c = true)
    (hword : ∀ c ∈ word, isBlank c = false) (hne : word ≠ []) (rest : List Char) :
    (blanks ++ (word ++ rest)).dropWhile isBlank = word ++ rest := by
  rw [List.dropWhile_append_of_pos hblanks]
  cases word with
  | nil => exact absurd rfl hne
  | cons c word => exact List.dropWhile_cons_of_neg (by simp [hword c List.mem_cons_self])

theorem trim_append {front word back : List Char} (hfront : ∀ c ∈ front, isBlank c = true)
    (hback : ∀ c ∈ back, isBlank c = true) (hword : ∀ c ∈ word, isBlank c = false)
    (hne : word ≠ []) : trim (front ++ word ++ back) = word := by
  have hlast : (back.reverse ++ (word.reverse ++ [])).dropWhile isBlank = word.reverse ++ [] :=
    dropWhile_blanks (by simpa using hback) (by simpa using hword) (by simpa using hne) []
  rw [List.append_nil] at hlast
  rw [trim, List.append_assoc, dropWhile_blanks hfront hword hne, List.reverse_append, hlast,
    List.reverse_reverse]

theorem exists_trim (cs : List Char) : ∃ front back, cs = front ++ trim cs ++ back ∧
    (∀ c ∈ front, isBlank c = true) ∧ ∀ c ∈ back, isBlank c = true := by
  refine ⟨cs.takeWhile isBlank, ((cs.dropWhile isBlank).reverse.takeWhile isBlank).reverse,
    ?_, fun c hc => List.mem_takeWhile_imp hc, fun c hc => ?_⟩
  · rw [trim, List.append_assoc, ← List.reverse_append, List.takeWhile_append_dropWhile,
      List.reverse_reverse, List.takeWhile_append_dropWhile]
  · exact List.mem_takeWhile_imp (List.mem_reverse.mp hc)

theorem isBlank_of_isDigit {c : Char} (h : c.isDigit = true) : isBlank c = false := by
  have hrange : 48 ≤ c.toNat ∧ c.toNat ≤ 57 := by
    simpa [Char.isDigit, UInt32.le_iff_toNat_le] using h
  simp only [isBlank, blankRanges, List.any_cons, List.any_nil, Bool.or_false, Bool.or_eq_false_iff,
    Bool.and_eq_false_iff, decide_eq_false_iff_not]
  omega

theorem Digits.isBlank {word : List Char} {n : Nat} (h : Digits word n) :
    ∀ c ∈ word, isBlank c = false :=
  fun c hc => isBlank_of_isDigit (h.2.1 c hc)

theorem Decimal.isBlank {word : List Char} {n : Nat} (h : Decimal word n) :
    ∀ c ∈ word, isBlank c = false := by
  obtain h | ⟨digits, rfl, h⟩ := h
  · exact h.isBlank
  · exact List.forall_mem_cons.mpr ⟨by decide, h.isBlank⟩

theorem Decimal.ne_nil {word : List Char} {n : Nat} (h : Decimal word n) : word ≠ [] := by
  obtain h | ⟨digits, rfl, -⟩ := h
  · exact h.1
  · exact List.cons_ne_nil _ _

/-- What a size is that is read from a text, whatever the text is. -/
theorem size?_trim_eq_some_iff {value : String} {n : Nat} :
    size? (trim value.toList) = some n ↔ Denotes value n ∧ n < Word.size := by
  rw [size?_eq_some_iff]
  refine and_congr_left fun _ => ⟨fun h => ?_, ?_⟩
  · obtain ⟨front, back, hsplit, hfront, hback⟩ := exists_trim value.toList
    exact ⟨front, _, back, hsplit, h, hfront, hback⟩
  · rintro ⟨front, word, back, hsplit, h, hfront, hback⟩
    rwa [hsplit, trim_append hfront hback h.isBlank h.ne_nil]

end TraceCapture.Text
