import Mathlib.Data.List.Forall2
import TraceCapture.Proofs.Memory.Listing
import TraceCapture.Proofs.Memory.Scanning
import TraceCapture.Proofs.Text.Numeral

set_option autoImplicit false

/-!
# The grammar of listings

A listing is read as the longest row of well-formed lines in front of it, whatever pieces its source
delivers.
-/

namespace TraceCapture

inductive HexDigit (c : UInt8) : Nat → Prop where
  | decimal {d : Nat} (hd : d < 10) (hc : c.toNat = '0'.toNat + d) : HexDigit c d
  | lower {d : Nat} (hd : d < 6) (hc : c.toNat = 'a'.toNat + d) : HexDigit c (10 + d)
  | upper {d : Nat} (hd : d < 6) (hc : c.toNat = 'A'.toNat + d) : HexDigit c (10 + d)

/-- A 64-bit number in hexadecimal digits, of which there may be any number. -/
def Hex (value : Nat) (word : List UInt8) : Prop :=
  word ≠ [] ∧ ∃ ds, List.Forall₂ HexDigit word ds ∧ value = Nat.ofDigits 16 ds.reverse ∧
    value < 2 ^ 64

def Spaces (word : List UInt8) : Prop := word ≠ [] ∧ ∀ c ∈ word, c = ' '.toUInt8

theorem Spaces.head?_append {gap : List UInt8} (h : Spaces gap) (rest : List UInt8) :
    (gap ++ rest).head? = some ' '.toUInt8 := by
  cases gap with
  | nil => exact absurd rfl h.1
  | cons c gap => exact congrArg some (h.2 c List.mem_cons_self)

/-- Spaces that the columns start with belong to the gap in front of them. -/
theorem Spaces.absorb {gap : List UInt8} (h : Spaces gap) (columns : List UInt8) :
    ∃ gap' columns', gap ++ columns = gap' ++ columns' ∧ Spaces gap' ∧
      (∀ c, columns'.head? = some c → c ≠ ' '.toUInt8) ∧ ∀ c ∈ columns', c ∈ columns := by
  refine ⟨gap ++ columns.takeWhile (· == ' '.toUInt8), columns.dropWhile (· == ' '.toUInt8),
    ?_, ⟨?_, ?_⟩, ?_, ?_⟩
  · rw [List.append_assoc, List.takeWhile_append_dropWhile]
  · exact fun hnil => h.1 (List.append_eq_nil_iff.mp hnil).1
  · intro c hc
    obtain hc | hc := List.mem_append.mp hc
    · exact h.2 c hc
    · exact beq_iff_eq.mp (List.all_eq_true.mp List.all_takeWhile c hc)
  · intro c hc heq
    have hnot := List.head?_dropWhile_not (· == ' '.toUInt8) columns
    rw [hc, heq] at hnot
    exact absurd hnot (by decide)
  · exact fun c hc => (List.dropWhile_suffix _).subset hc

def Protection.letters (p : Protection) : List UInt8 :=
  [if p.has .read then 'r'.toUInt8 else '-'.toUInt8,
    if p.has .write then 'w'.toUInt8 else '-'.toUInt8,
    if p.has .execute then 'x'.toUInt8 else '-'.toUInt8,
    if p.has .shared then 's'.toUInt8 else 'p'.toUInt8]

namespace Listing

/-- A well-formed line, and the region that it lists. -/
inductive Line : Region → List UInt8 → Prop where
  | mk {r : Region} {start stop gap gap' columns : List UInt8} (hstart : Hex r.start start)
      (hstop : Hex r.stop stop) (hgap : Spaces gap) (hknown : r.protection.isKnown = true)
      (hgap' : Spaces gap') (hcolumns : '\n'.toUInt8 ∉ columns) :
      Line r (start ++ ['-'.toUInt8] ++ stop ++ gap ++ r.protection.letters ++ gap' ++ columns ++
        ['\n'.toUInt8])

theorem digitValue_eq (c : UInt8) :
    digitValue c = if 48 ≤ c.toNat ∧ c.toNat ≤ 57 then some (c.toNat - 48)
      else if 97 ≤ c.toNat ∧ c.toNat ≤ 102 then some (c.toNat - 87)
      else if 65 ≤ c.toNat ∧ c.toNat ≤ 70 then some (c.toNat - 55) else none := by
  simp [digitValue, UInt8.le_iff_toNat_le]

theorem digitValue_eq_some_iff {c : UInt8} {d : Nat} : digitValue c = some d ↔ HexDigit c d := by
  rw [digitValue_eq]
  constructor
  · intro h
    split_ifs at h with hdecimal hlower hupper <;> cases h
    · exact .decimal (by omega) (by change _ = 48 + _; omega)
    · have hvalue : c.toNat - 87 = 10 + (c.toNat - 97) := by omega
      rw [hvalue]
      exact .lower (by omega) (by change _ = 97 + _; omega)
    · have hvalue : c.toNat - 55 = 10 + (c.toNat - 65) := by omega
      rw [hvalue]
      exact .upper (by omega) (by change _ = 65 + _; omega)
  · intro h
    cases h with
    | @decimal _ hd hc =>
      change _ = 48 + d at hc
      rw [if_pos (by omega), hc, Nat.add_sub_cancel_left]
    | @lower d hd hc =>
      change _ = 97 + d at hc
      rw [if_neg (by omega), if_pos (by omega)]
      exact congrArg some (by omega)
    | @upper d hd hc =>
      change _ = 65 + d at hc
      rw [if_neg (by omega), if_neg (by omega), if_pos (by omega)]
      exact congrArg some (by omega)

theorem not_hexDigit {c : UInt8} (h : digitValue c = none) : ¬ ∃ d, HexDigit c d := by
  rintro ⟨d, hd⟩
  rw [digitValue_eq_some_iff.mpr hd] at h
  cases h

variable {σ : Type} [Source σ]

theorem digits_eq (value : Nat) (l : Lookahead σ) :
    digits value l = match l.peek.bind digitValue with
      | some d => if 16 * value + d < Word.size then digits (16 * value + d) l.bump else (none, l)
      | none => (some value, l) := by
  rw [digits]
  split <;> next h => rw [h]

theorem le_ofDigits (ds : List Nat) (value : Nat) :
    value ≤ Nat.ofDigits 16 (ds.reverse ++ [value]) := by
  rw [Nat.ofDigits_append, Nat.ofDigits_singleton]
  exact Nat.le_add_left_of_le (Nat.le_mul_of_pos_left value (by positivity))

theorem parses_digits (value : Nat) (h : value < Word.size) :
    Scan.Parses (digits (σ := σ) value)
      (fun a word => ∃ ds, List.Forall₂ HexDigit word ds ∧
        a = Nat.ofDigits 16 (ds.reverse ++ [value]) ∧ a < Word.size)
      fun c => ∃ d, HexDigit c d where
  sound := by
    intro l l' bytes a hl hdigits
    induction hl generalizing value with
    | @nil l hpeek =>
      rw [digits_eq, hpeek] at hdigits
      cases hdigits
      exact ⟨[], [], rfl, ⟨[], .nil, by simp, h⟩, .nil hpeek⟩
    | @cons l b bytes hpeek hrest ih =>
      rw [digits_eq, hpeek, Option.bind_some] at hdigits
      cases hd : digitValue b with
      | none =>
        rw [hd] at hdigits
        cases hdigits
        exact ⟨[], b :: bytes, rfl, ⟨[], .nil, by simp, h⟩, .cons hpeek hrest⟩
      | some d =>
        rw [hd] at hdigits
        dsimp only at hdigits
        split at hdigits
        · next hless =>
          obtain ⟨word, rest, rfl, ⟨ds, hds, ha, hlt⟩, hl'⟩ := ih _ hless hdigits
          rw [← Text.ofDigits_concat] at ha
          exact ⟨b :: word, rest, rfl,
            ⟨d :: ds, .cons (digitValue_eq_some_iff.mp hd) hds, ha, hlt⟩, hl'⟩
        · cases hdigits
  complete := by
    rintro l word rest a hl ⟨ds, hds, rfl, hlt⟩ hstop
    induction hds generalizing l value with
    | nil =>
      refine ⟨l, ?_, hl⟩
      have hnone : l.peek.bind digitValue = none := by
        rw [hl.peek_eq, Option.bind_eq_none_iff]
        intro c hc
        rw [Option.eq_none_iff_forall_ne_some]
        exact fun d hd => hstop c hc ⟨d, digitValue_eq_some_iff.mp hd⟩
      rw [digits_eq, hnone]
      simp
    | @cons c d word ds hd _ ih =>
      rw [Text.ofDigits_concat] at hlt ⊢
      have hless := Nat.lt_of_le_of_lt (le_ofDigits ds _) hlt
      obtain ⟨l', hdigits, hl'⟩ := ih _ hless hl.bump hlt
      refine ⟨l', ?_, hl'⟩
      have hsome : l.peek.bind digitValue = some d := by
        rw [hl.peek_eq]
        exact digitValue_eq_some_iff.mpr hd
      rw [digits_eq, hsome]
      dsimp only
      rw [if_pos hless, hdigits]

theorem parses_address :
    Scan.Parses (address (σ := σ)) Hex fun c => ∃ d, HexDigit c d where
  sound := by
    intro l l' bytes a hl h
    obtain ⟨d, l₁, _, _, rfl, ⟨c, rfl, hd⟩, h₁, h⟩ := (Scan.parses_byte _).bind_sound hl h
    have hless : d < Word.size := Nat.lt_trans (digitValue_lt hd) (by decide)
    obtain ⟨word, rest, rfl, ⟨ds, hds, ha, hlt⟩, hl'⟩ := (parses_digits d hless).sound h₁ h
    rw [← List.reverse_cons] at ha
    exact ⟨c :: word, rest, rfl,
      ⟨by simp, d :: ds, .cons (digitValue_eq_some_iff.mp hd) hds, ha, hlt⟩, hl'⟩
  complete := by
    rintro l word rest a hl ⟨hne, ds, hds, rfl, hlt⟩ hstop
    cases hds with
    | nil => exact absurd rfl hne
    | @cons c d word ds hd hds =>
      obtain ⟨l₁, h₁, hbind⟩ := (Scan.parses_byte _).bind_single hl
        ⟨c, rfl, digitValue_eq_some_iff.mpr hd⟩
      rw [List.reverse_cons] at hlt ⊢
      have hless := Nat.lt_of_le_of_lt (le_ofDigits ds d) hlt
      obtain ⟨l', hdigits, hl'⟩ :=
        (parses_digits d hless).complete h₁ ⟨ds, hds, rfl, hlt⟩ hstop
      exact ⟨l', hbind hdigits, hl'⟩

theorem parses_expect (b : UInt8) :
    Scan.Parses (expect (σ := σ) b) (fun _ word => word = [b]) fun _ => False where
  sound := by
    intro l l' bytes a hl h
    obtain ⟨word, rest, hbytes, ⟨c, rfl, hc⟩, hl'⟩ := (Scan.parses_byte _).sound hl h
    split at hc <;> cases hc
    next hcb => exact ⟨[c], rest, hbytes, by rw [hcb], hl'⟩
  complete := by
    rintro l _ rest ⟨⟩ hl rfl hstop
    exact (Scan.parses_byte _).complete hl ⟨b, rfl, if_pos rfl⟩ hstop

theorem parses_spaces :
    Scan.Parses (spaces (σ := σ)) (fun _ => Spaces) fun c => c = ' '.toUInt8 where
  sound := by
    intro l l' bytes a hl h
    obtain ⟨_, l₁, _, _, rfl, rfl, h₁, h⟩ := (parses_expect _).bind_sound hl h
    obtain ⟨word, rest, rfl, hword, hl'⟩ := (Scan.parses_skipWhile _).sound h₁ h
    refine ⟨32 :: word, rest, rfl, ⟨by simp, ?_⟩, hl'⟩
    rintro c (_ | ⟨_, hc⟩)
    · rfl
    · exact beq_iff_eq.mp (hword c hc)
  complete := by
    rintro l word rest ⟨⟩ hl ⟨hne, hword⟩ hstop
    cases word with
    | nil => exact absurd rfl hne
    | cons c word =>
      obtain rfl : c = ' '.toUInt8 := hword c List.mem_cons_self
      obtain ⟨l₁, h₁, hbind⟩ := (parses_expect _).bind_single (a := ()) hl rfl
      obtain ⟨l', hskip, hl'⟩ := (Scan.parses_skipWhile (· == 32)).complete (a := ()) h₁
        (fun c hc => beq_iff_eq.mpr (hword c (List.mem_cons_of_mem _ hc)))
        (fun c hc heq => hstop c hc (beq_iff_eq.mp heq))
      exact ⟨l', hbind hskip, hl'⟩

theorem parses_flag (right : Right) {set clear : Char} (hne : clear.toUInt8 ≠ set.toUInt8) :
    Scan.Parses (flag (σ := σ) right set clear)
      (fun rights word => ∃ has : Bool, rights = (if has then [right] else []) ∧
        word = [if has then set.toUInt8 else clear.toUInt8])
      fun _ => False where
  sound := by
    intro l l' bytes rights hl h
    obtain ⟨word, rest, hbytes, ⟨c, rfl, hc⟩, hl'⟩ := (Scan.parses_byte _).sound hl h
    split at hc
    · next hset =>
      cases hc
      exact ⟨[c], rest, hbytes, ⟨true, rfl, by rw [hset]; rfl⟩, hl'⟩
    · split at hc <;> cases hc
      next hclear => exact ⟨[c], rest, hbytes, ⟨false, rfl, by rw [hclear]; rfl⟩, hl'⟩
  complete := by
    rintro l _ rest _ hl ⟨has, rfl, rfl⟩ hstop
    refine (Scan.parses_byte _).complete hl ⟨_, rfl, ?_⟩ hstop
    cases has with
    | true => exact if_pos rfl
    | false => exact (if_neg hne).trans (if_pos rfl)

theorem parses_restOfLine :
    Scan.Parses (restOfLine (σ := σ))
      (fun _ word => ∃ columns, word = columns ++ ['\n'.toUInt8] ∧ '\n'.toUInt8 ∉ columns)
      fun _ => False where
  sound := by
    intro l l' bytes a hl h
    obtain ⟨_, l₁, columns, _, rfl, hcolumns, h₁, h⟩ := (Scan.parses_skipWhile _).bind_sound hl h
    obtain ⟨_, rest, rfl, rfl, hl'⟩ := (parses_expect _).sound h₁ h
    refine ⟨columns ++ [10], rest, by simp, ⟨columns, rfl, fun hmem => ?_⟩, hl'⟩
    exact absurd (hcolumns _ hmem) (by decide)
  complete := by
    rintro l _ rest ⟨⟩ hl ⟨columns, rfl, hcolumns⟩ -
    have hend : ∀ c, (['\n'.toUInt8] ++ rest).head? = some c → ¬ (c != 10) = true := by
      rintro _ ⟨⟩
      decide
    rw [List.append_assoc] at hl
    obtain ⟨l₁, h₁, hbind⟩ := (Scan.parses_skipWhile (· != 10)).bind_complete (a := ()) hl
      (fun c hc => bne_iff_ne.mpr fun (heq : c = '\n'.toUInt8) => hcolumns (heq ▸ hc)) hend
    obtain ⟨l', htake, hl'⟩ := (parses_expect 10).complete (a := ()) h₁ rfl (by simp)
    exact ⟨l', hbind htake, hl'⟩

def rightsSet (read write execute shared : Bool) : List Right :=
  (if read then [.read] else []) ++ (if write then [.write] else []) ++
    (if execute then [.execute] else []) ++ if shared then [.shared] else []

theorem letters_rightsSet (read write execute shared : Bool) :
    (Protection.ofRights (rightsSet read write execute shared)).isKnown = true ∧
      (Protection.ofRights (rightsSet read write execute shared)).letters =
        [if read then 'r'.toUInt8 else '-'.toUInt8, if write then 'w'.toUInt8 else '-'.toUInt8,
          if execute then 'x'.toUInt8 else '-'.toUInt8,
          if shared then 's'.toUInt8 else 'p'.toUInt8] := by
  cases read <;> cases write <;> cases execute <;> cases shared <;> decide

theorem ofRights_rightsSet {p : Protection} (h : p.isKnown = true) :
    Protection.ofRights (rightsSet (p.has .read) (p.has .write) (p.has .execute) (p.has .shared)) =
      p := by
  have hall : ∀ n : Fin 16, let p : Protection := ⟨UInt8.ofNat n⟩
      Protection.ofRights (rightsSet (p.has .read) (p.has .write) (p.has .execute)
        (p.has .shared)) = p := by decide
  have hlt : p.bits.toNat < 16 := by
    have heq := congrArg UInt8.toNat (beq_iff_eq.mp h)
    rw [UInt8.toNat_and] at heq
    exact Nat.lt_succ_of_le (heq ▸ Nat.and_le_right)
  have hbits : (⟨UInt8.ofNat p.bits.toNat⟩ : Protection) = p := by rw [UInt8.ofNat_toNat]
  have hp := hall ⟨p.bits.toNat, hlt⟩
  dsimp only at hp
  rwa [hbits] at hp

theorem parses_region : Scan.Parses (region (σ := σ)) Line fun _ => False where
  sound := by
    intro l l' bytes r hl h
    obtain ⟨start, l₁, first, _, rfl, hstart, h₁, h⟩ := parses_address.bind_sound hl h
    obtain ⟨_, l₂, _, _, rfl, rfl, h₂, h⟩ := (parses_expect _).bind_sound h₁ h
    obtain ⟨stop, l₃, second, _, rfl, hstop, h₃, h⟩ := parses_address.bind_sound h₂ h
    obtain ⟨_, l₄, gap, _, rfl, hgap, h₄, h⟩ := parses_spaces.bind_sound h₃ h
    obtain ⟨_, l₅, _, _, rfl, ⟨read, rfl, rfl⟩, h₅, h⟩ :=
      (parses_flag .read (by decide)).bind_sound h₄ h
    obtain ⟨_, l₆, _, _, rfl, ⟨write, rfl, rfl⟩, h₆, h⟩ :=
      (parses_flag .write (by decide)).bind_sound h₅ h
    obtain ⟨_, l₇, _, _, rfl, ⟨execute, rfl, rfl⟩, h₇, h⟩ :=
      (parses_flag .execute (by decide)).bind_sound h₆ h
    obtain ⟨_, l₈, _, _, rfl, ⟨shared, rfl, rfl⟩, h₈, h⟩ :=
      (parses_flag .shared (by decide)).bind_sound h₇ h
    obtain ⟨_, l₉, gap', _, rfl, hgap', h₉, h⟩ := parses_spaces.bind_sound h₈ h
    obtain ⟨_, l₁₀, _, rest, rfl, ⟨columns, rfl, hcolumns⟩, hrest, h⟩ :=
      parses_restOfLine.bind_sound h₉ h
    cases h
    obtain ⟨hknown, hletters⟩ := letters_rightsSet read write execute shared
    have hline : Line ⟨start, stop, .ofRights (rightsSet read write execute shared)⟩ _ :=
      .mk hstart hstop hgap hknown hgap' hcolumns
    refine ⟨_, rest, ?_, hline, hrest⟩
    rw [hletters]
    simp only [List.append_assoc, List.cons_append, List.nil_append]
    rfl
  complete := by
    intro l line rest r hl hline _
    cases hline with
    | @mk start stop first gap columns hstart hstop hfirst hknown hgap hcolumns =>
    obtain ⟨second, columns', hsplit, hsecond, hhead, hmem⟩ := hgap.absorb columns
    have hcolumns' : '\n'.toUInt8 ∉ columns' := fun h => hcolumns (hmem _ h)
    simp only [Protection.letters, List.append_assoc, List.cons_append, List.nil_append] at hl
    rw [← List.append_assoc gap columns, hsplit, List.append_assoc, List.append_cons columns'] at hl
    obtain ⟨l₁, h₁, hstart⟩ := parses_address.bind_complete hl hstart (by
      rintro _ ⟨⟩
      exact not_hexDigit (by decide))
    obtain ⟨l₂, h₂, hdash⟩ := (parses_expect 45).bind_single (a := ()) h₁ rfl
    obtain ⟨l₃, h₃, hstop⟩ := parses_address.bind_complete h₂ hstop (by
      rw [hfirst.head?_append]
      rintro _ ⟨⟩
      exact not_hexDigit (by decide))
    obtain ⟨l₄, h₄, hfirst⟩ := parses_spaces.bind_complete (a := ()) h₃ hfirst (by
      rintro _ ⟨⟩
      split <;> decide)
    obtain ⟨l₅, h₅, hread⟩ := (parses_flag .read (by decide)).bind_single h₄
      ⟨_, rfl, rfl⟩
    obtain ⟨l₆, h₆, hwrite⟩ := (parses_flag .write (by decide)).bind_single h₅
      ⟨_, rfl, rfl⟩
    obtain ⟨l₇, h₇, hexecute⟩ := (parses_flag .execute (by decide)).bind_single h₆
      ⟨_, rfl, rfl⟩
    obtain ⟨l₈, h₈, hshared⟩ := (parses_flag .shared (by decide)).bind_single h₇
      ⟨_, rfl, rfl⟩
    obtain ⟨l₉, h₉, hsecond⟩ := parses_spaces.bind_complete (a := ()) h₈ hsecond (by
      cases columns' with
      | nil =>
        rintro _ ⟨⟩
        decide
      | cons c columns' => exact hhead)
    obtain ⟨l', hl', hrest⟩ := parses_restOfLine.bind_complete (a := ()) h₉
      ⟨columns', rfl, hcolumns'⟩ (by simp)
    have hregion : (⟨r.start, r.stop, .ofRights (rightsSet (r.protection.has .read)
        (r.protection.has .write) (r.protection.has .execute) (r.protection.has .shared))⟩ :
        Region) = r := by
      rw [ofRights_rightsSet hknown]
    refine ⟨l', hstart (hdash (hstop (hfirst (hread (hwrite (hexecute (hshared (hsecond
      (hrest ?_))))))))), hl'⟩
    exact congrArg (fun r => (some r, l')) hregion

variable {τ : Type} [Source τ] {l : Lookahead σ} {text : List UInt8}

end Listing

end TraceCapture
