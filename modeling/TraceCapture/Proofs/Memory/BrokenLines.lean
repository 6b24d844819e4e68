import TraceCapture.Proofs.Memory.Grammar

set_option autoImplicit false

namespace TraceCapture

namespace Scan

open Lookahead

variable {σ α β : Type} {p : Scan σ α} {f : α → Scan σ β} {L : α → List UInt8 → Prop}
  {more : UInt8 → Prop} {l l' : Lookahead σ} {bytes : List UInt8}

theorem bind_of_some {a : α} (h : p l = (some a, l')) : (p >>= f) l = f a l' := by
  rw [bind_apply, h]

theorem bind_of_none (h : p l = (none, l')) : (p >>= f) l = (none, l') := by
  rw [bind_apply, h]

variable [Source σ]

theorem Parses.bind_none (hp : Parses p L more) (hl : Shows l bytes)
    (h : (p >>= f) l = (none, l')) :
    p l = (none, l') ∨ ∃ a l₁ word rest, bytes = word ++ rest ∧ L a word ∧ Shows l₁ rest ∧
      p l = (some a, l₁) ∧ f a l₁ = (none, l') := by
  rw [bind_apply] at h
  split at h
  · next a l₁ ha =>
    obtain ⟨word, rest, hbytes, hword, hrest⟩ := hp.sound hl ha
    exact .inr ⟨a, l₁, word, rest, hbytes, hword, hrest, ha, h⟩
  · next l₁ ha =>
    cases h
    exact .inl ha

theorem byte_eq_none {accept : UInt8 → Option α} (h : l.peek.bind accept = none) :
    byte accept l = (none, l) := by
  rw [byte, h]

theorem of_byte_eq_none {accept : UInt8 → Option α} (h : byte accept l = (none, l')) :
    l' = l ∧ l.peek.bind accept = none := by
  unfold byte at h
  split at h <;> cases h
  next hnone => exact ⟨rfl, hnone⟩

end Scan

def IsHexDigit (c : UInt8) : Prop := ∃ d, HexDigit c d

theorem isHexDigit_iff {c : UInt8} : IsHexDigit c ↔ (Listing.digitValue c).isSome = true := by
  rw [Option.isSome_iff_exists]
  exact exists_congr fun d => Listing.digitValue_eq_some_iff.symm

instance (c : UInt8) : Decidable (IsHexDigit c) := decidable_of_iff _ isHexDigit_iff.symm

theorem Hex.isHexDigit {value : Nat} {word : List UInt8} (h : Hex value word) :
    ∀ c ∈ word, IsHexDigit c := by
  obtain ⟨-, ds, hds, -⟩ := h
  induction hds with
  | nil => nofun
  | cons hd _ ih =>
    intro c hc
    obtain rfl | hc := List.mem_cons.mp hc
    · exact ⟨_, hd⟩
    · exact ih c hc

theorem Hex.newline_not_mem {value : Nat} {word : List UInt8} (h : Hex value word) :
    '\n'.toUInt8 ∉ word := fun hmem => absurd (h.isHexDigit _ hmem) (by decide)

theorem Spaces.newline_not_mem {gap : List UInt8} (h : Spaces gap) : '\n'.toUInt8 ∉ gap :=
  fun hmem => absurd (h.2 _ hmem) (by decide)

def Overflows (word : List UInt8) (c : UInt8) : Prop :=
  ∃ value d, Hex value word ∧ HexDigit c d ∧ 2 ^ 64 ≤ 16 * value + d

namespace Listing

inductive Broken : List UInt8 → UInt8 → Prop where
  | start {word : List UInt8} {c : UInt8} (h : Overflows word c) : Broken word c
  | stop {r : Nat} {start word : List UInt8} {c : UInt8} (hstart : Hex r start)
      (h : Overflows word c) : Broken (start ++ ['-'.toUInt8] ++ word) c
  | letters {r s : Nat} {start stop gap letters : List UInt8} {p : Protection} {c : UInt8}
      (hstart : Hex r start) (hstop : Hex s stop) (hgap : Spaces gap)
      (hletters : letters <+: p.letters) (hc : IsHexDigit c) :
      Broken (start ++ ['-'.toUInt8] ++ stop ++ gap ++ letters) c

variable {σ : Type} [Source σ] {l l' : Lookahead σ} {text bytes rest : List UInt8} {c : UInt8}

structure Leaves (taken rest : List UInt8) : Prop where
  newline_not_mem : '\n'.toUInt8 ∉ taken
  broken : ∀ c, rest.head? = some c → IsHexDigit c → Broken taken c

theorem peek_of_digits {value a : Nat} (h : digits value l = (some a, l')) :
    l'.peek.bind digitValue = none := by
  fun_induction digits value l with
  | case1 value l d hd hlt ih => exact ih h
  | case2 => cases h
  | case3 value l hnone =>
    cases h
    exact hnone

theorem head_of_address {a : Nat} (hl : l.Shows bytes) (h : address l = (some a, l'))
    (hl' : l'.Shows rest) (c : UInt8) (hc : rest.head? = some c) : ¬IsHexDigit c := by
  obtain ⟨d, l₁, _, _, -, -, -, h⟩ := (Scan.parses_byte _).bind_sound hl h
  have hnone := peek_of_digits h
  rw [hl'.peek_eq, hc] at hnone
  exact not_hexDigit hnone

theorem digits_eq_none {value : Nat} (hl : l.Shows bytes) (h : digits value l = (none, l')) :
    ∃ word c rest ds d, bytes = word ++ c :: rest ∧ l'.Shows (c :: rest) ∧
      List.Forall₂ HexDigit word ds ∧ HexDigit c d ∧
      (value < Word.size → Nat.ofDigits 16 (ds.reverse ++ [value]) < Word.size) ∧
      Word.size ≤ 16 * Nat.ofDigits 16 (ds.reverse ++ [value]) + d := by
  induction hl generalizing value with
  | @nil l hpeek =>
    rw [digits_eq, hpeek] at h
    cases h
  | @cons l b bytes hpeek hrest ih =>
    rw [digits_eq, hpeek, Option.bind_some] at h
    cases hd : digitValue b with
    | none =>
      rw [hd] at h
      cases h
    | some d =>
      have hdigit := digitValue_eq_some_iff.mp hd
      rw [hd] at h
      dsimp only at h
      split at h
      · next hless =>
        obtain ⟨word, c, rest, ds, e, rfl, hl', hds, hc, hlt, hle⟩ := ih h
        rw [← Text.ofDigits_concat] at hlt hle
        exact ⟨b :: word, c, rest, d :: ds, e, rfl, hl', .cons hdigit hds, hc,
          fun _ => hlt hless, hle⟩
      · next hless =>
        cases h
        exact ⟨[], b, bytes, [], d, rfl, .cons hpeek hrest, .nil, hdigit, by simp,
          by simpa using hless⟩

/-- An address fails at a byte that is no digit, or at one that is too much. -/
theorem address_eq_none (hl : l.Shows bytes) (h : address l = (none, l')) :
    ∃ word rest, bytes = word ++ rest ∧ l'.Shows rest ∧ '\n'.toUInt8 ∉ word ∧
      ∀ c, rest.head? = some c → IsHexDigit c → Overflows word c := by
  obtain h | ⟨d, l₁, _, rest, rfl, ⟨b, rfl, hb⟩, h₁, -, h⟩ := (Scan.parses_byte _).bind_none hl h
  · obtain ⟨rfl, hnone⟩ := Scan.of_byte_eq_none h
    refine ⟨[], bytes, rfl, hl, List.not_mem_nil, fun c hc hdigit => ?_⟩
    rw [hl.peek_eq, hc] at hnone
    exact absurd hdigit (not_hexDigit hnone)
  · obtain ⟨word, c, rest, ds, e, rfl, hl', hds, hc, hlt, hle⟩ := digits_eq_none h₁ h
    rw [← List.reverse_cons] at hlt hle
    have hless : d < Word.size := Nat.lt_trans (digitValue_lt hb) (by decide)
    have hword : Hex _ (b :: word) :=
      ⟨by simp, d :: ds, .cons (digitValue_eq_some_iff.mp hb) hds, rfl, hlt hless⟩
    refine ⟨b :: word, c :: rest, rfl, hl', hword.newline_not_mem, ?_⟩
    rintro _ ⟨⟩ -
    exact ⟨_, e, hword, hc, hle⟩

theorem flag_eq_none {right : Right} {set clear : Char}
    (h : flag right set clear l = (none, l')) : l' = l := (Scan.of_byte_eq_none h).1

theorem spaces_eq_none (hl : l.Shows bytes) (h : spaces l = (none, l')) : l' = l := by
  obtain h | ⟨_, l₁, _, _, rfl, -, h₁, -, h⟩ := (parses_expect _).bind_none hl h
  · exact (Scan.of_byte_eq_none h).1
  · obtain ⟨l₂, h₂, -⟩ := Scan.shows_skipWhile (· == 32) h₁
    rw [h₂] at h
    cases h

theorem restOfLine_eq_none (hl : l.Shows bytes) (h : restOfLine l = (none, l')) :
    '\n'.toUInt8 ∉ bytes ∧ l'.Shows [] := by
  obtain ⟨l₁, hskip, h₁⟩ := Scan.shows_skipWhile (· != 10) hl
  obtain ⟨rfl, hnone⟩ := Scan.of_byte_eq_none ((Scan.bind_of_some hskip).symm.trans h)
  rw [h₁.peek_eq] at hnone
  have hhead := List.head?_dropWhile_not (· != 10) bytes
  cases hdrop : bytes.dropWhile (· != 10) with
  | nil =>
    rw [hdrop] at h₁
    refine ⟨fun hmem => ?_, h₁⟩
    exact absurd (List.dropWhile_eq_nil_iff.mp hdrop _ hmem) (by decide)
  | cons c rest =>
    rw [hdrop] at hnone hhead
    obtain rfl : c = 10 := by simpa using hhead
    cases hnone

theorem newline_not_mem_letters (p : Protection) : '\n'.toUInt8 ∉ p.letters := by
  intro h
  simp only [Protection.letters, List.mem_cons, List.not_mem_nil, or_false] at h
  split_ifs at h <;> revert h <;> decide

theorem leaves_letters {r s : Nat} {start stop gap letters : List UInt8} {p : Protection}
    (hstart : Hex r start) (hstop : Hex s stop) (hgap : Spaces gap)
    (hletters : letters <+: p.letters) :
    Leaves (start ++ ['-'.toUInt8] ++ stop ++ gap ++ letters) rest where
  newline_not_mem := by
    have hp : '\n'.toUInt8 ∉ letters :=
      fun hmem => newline_not_mem_letters p (hletters.subset hmem)
    have hdash : '\n'.toUInt8 ≠ '-'.toUInt8 := by decide
    simp [hstart.newline_not_mem, hstop.newline_not_mem, hgap.newline_not_mem, hdash, hp]
  broken c _ hc := .letters hstart hstop hgap hletters hc

/-- A scan that fails has taken the front of a line. -/
theorem region_eq_none (hl : l.Shows text) (h : region l = (none, l')) :
    ∃ taken rest, text = taken ++ rest ∧ l'.Shows rest ∧ Leaves taken rest := by
  have hdash : '\n'.toUInt8 ≠ '-'.toUInt8 := by decide
  obtain h | ⟨_, l₁, start, _, rfl, hstart, h₁, hend, h⟩ := parses_address.bind_none hl h
  · obtain ⟨word, rest, rfl, hrest, hnewline, hbroken⟩ := address_eq_none hl h
    exact ⟨word, rest, rfl, hrest, hnewline, fun c hc hdigit => .start (hbroken c hc hdigit)⟩
  obtain h | ⟨_, l₂, dash, _, rfl, hword, h₂, -, h⟩ := (parses_expect _).bind_none h₁ h
  · obtain ⟨rfl, -⟩ := Scan.of_byte_eq_none h
    exact ⟨start, _, rfl, h₁, hstart.newline_not_mem,
      fun c hc hdigit => absurd hdigit (head_of_address hl hend h₁ c hc)⟩
  obtain rfl : dash = ['-'.toUInt8] := hword
  obtain h | ⟨_, l₃, stop, _, rfl, hstop, h₃, hend, h⟩ := parses_address.bind_none h₂ h
  · obtain ⟨word, rest, rfl, hrest, hnewline, hbroken⟩ := address_eq_none h₂ h
    refine ⟨start ++ ['-'.toUInt8] ++ word, rest, by simp, hrest, ?_, ?_⟩
    · simp [hstart.newline_not_mem, hdash, hnewline]
    · exact fun c hc hdigit => .stop hstart (hbroken c hc hdigit)
  obtain h | ⟨_, l₄, gap, _, rfl, hgap, h₄, -, h⟩ := parses_spaces.bind_none h₃ h
  · obtain rfl := spaces_eq_none h₃ h
    refine ⟨start ++ ['-'.toUInt8] ++ stop, _, by simp, h₃, ?_, ?_⟩
    · simp [hstart.newline_not_mem, hdash, hstop.newline_not_mem]
    · exact fun c hc hdigit => absurd hdigit (head_of_address h₂ hend h₃ c hc)
  -- From here on a digit never fits, wherever the scan fails.
  obtain h | ⟨_, l₅, r, _, rfl, ⟨read, rfl, hr⟩, h₅, -, h⟩ :=
    (parses_flag .read (by decide)).bind_none h₄ h
  · obtain rfl := flag_eq_none h
    have hletters : [] <+: (Protection.ofRights []).letters := List.nil_prefix
    exact ⟨_, _, by simp, h₄, leaves_letters hstart hstop hgap hletters⟩
  obtain h | ⟨_, l₆, w, _, rfl, ⟨write, rfl, hw⟩, h₆, -, h⟩ :=
    (parses_flag .write (by decide)).bind_none h₅ h
  · obtain rfl := flag_eq_none h
    have hletters : r <+: (Protection.ofRights (rightsSet read false false false)).letters := by
      rw [(letters_rightsSet _ _ _ _).2, hr]
      exact ⟨_, rfl⟩
    exact ⟨_, _, by simp, h₅, leaves_letters hstart hstop hgap hletters⟩
  obtain h | ⟨_, l₇, x, _, rfl, ⟨execute, rfl, hx⟩, h₇, -, h⟩ :=
    (parses_flag .execute (by decide)).bind_none h₆ h
  · obtain rfl := flag_eq_none h
    have hletters :
        r ++ w <+: (Protection.ofRights (rightsSet read write false false)).letters := by
      rw [(letters_rightsSet _ _ _ _).2, hr, hw]
      exact ⟨_, rfl⟩
    exact ⟨_, _, by simp, h₆, leaves_letters hstart hstop hgap hletters⟩
  obtain h | ⟨_, l₈, s, _, rfl, ⟨shared, rfl, hs⟩, h₈, -, h⟩ :=
    (parses_flag .shared (by decide)).bind_none h₇ h
  · obtain rfl := flag_eq_none h
    have hletters :
        r ++ w ++ x <+: (Protection.ofRights (rightsSet read write execute false)).letters := by
      rw [(letters_rightsSet _ _ _ _).2, hr, hw, hx]
      exact ⟨_, rfl⟩
    exact ⟨_, _, by simp, h₇, leaves_letters hstart hstop hgap hletters⟩
  have hletters :
      r ++ w ++ x ++ s <+: (Protection.ofRights (rightsSet read write execute shared)).letters := by
    rw [(letters_rightsSet _ _ _ _).2, hr, hw, hx, hs]
    exact ⟨_, rfl⟩
  obtain h | ⟨_, l₉, gap', _, rfl, hgap', h₉, -, h⟩ := parses_spaces.bind_none h₈ h
  · obtain rfl := spaces_eq_none h₈ h
    exact ⟨_, _, by simp, h₈, leaves_letters hstart hstop hgap hletters⟩
  obtain h | ⟨_, l₁₀, _, _, rfl, -, h₁₀, -, h⟩ := parses_restOfLine.bind_none h₉ h
  · obtain ⟨hcolumns, hend⟩ := restOfLine_eq_none h₉ h
    have hfront : Leaves _ [] := leaves_letters hstart hstop hgap hletters
    refine ⟨_, [], (List.append_nil _).symm, hend, ?_, nofun⟩
    simpa [hgap'.newline_not_mem, hcolumns] using hfront.newline_not_mem
  · cases h

theorem digits_overflow {value : Nat} {word : List UInt8} {ds : List Nat} {d : Nat}
    (hds : List.Forall₂ HexDigit word ds) (hc : HexDigit c d)
    (hlt : Nat.ofDigits 16 (ds.reverse ++ [value]) < Word.size)
    (hle : Word.size ≤ 16 * Nat.ofDigits 16 (ds.reverse ++ [value]) + d)
    (hl : l.Shows (word ++ c :: rest)) :
    ∃ l', digits value l = (none, l') ∧ l'.Shows (c :: rest) := by
  induction hds generalizing l value with
  | nil =>
    refine ⟨l, ?_, hl⟩
    have hle : Word.size ≤ 16 * value + d := by simpa using hle
    have hpeek : l.peek = some c := hl.peek_eq
    rw [digits_eq, hpeek, Option.bind_some, digitValue_eq_some_iff.mpr hc]
    exact if_neg (Nat.not_lt_of_le hle)
  | @cons b e word ds hb _ ih =>
    rw [Text.ofDigits_concat] at hlt hle
    have hless := Nat.lt_of_le_of_lt (le_ofDigits ds _) hlt
    obtain ⟨l', hdigits, hl'⟩ := ih hlt hle hl.bump
    have hpeek : l.peek = some b := hl.peek_eq
    refine ⟨l', ?_, hl'⟩
    rw [digits_eq, hpeek, Option.bind_some, digitValue_eq_some_iff.mpr hb]
    exact (if_pos hless).trans hdigits

theorem address_overflow {word : List UInt8} (h : Overflows word c)
    (hl : l.Shows (word ++ c :: rest)) :
    ∃ l', address l = (none, l') ∧ l'.Shows (c :: rest) := by
  obtain ⟨value, d, ⟨hne, ds, hds, rfl, hlt⟩, hc, hle⟩ := h
  cases hds with
  | nil => exact absurd rfl hne
  | @cons b e word ds hb hds =>
    rw [List.reverse_cons] at hlt hle
    obtain ⟨l₁, h₁, hfirst⟩ := (Scan.parses_byte _).bind_single hl
      ⟨b, rfl, digitValue_eq_some_iff.mpr hb⟩
    obtain ⟨l', hdigits, hl'⟩ := digits_overflow hds hc hlt hle h₁
    exact ⟨l', hfirst hdigits, hl'⟩

theorem ne_of_isHexDigit {b : UInt8} (hc : IsHexDigit c) (hb : ¬IsHexDigit b) : c ≠ b :=
  fun heq => hb (heq ▸ hc)

theorem flag_at_digit (right : Right) (set clear : Char) (hset : ¬IsHexDigit set.toUInt8)
    (hclear : ¬IsHexDigit clear.toUInt8) (hc : IsHexDigit c) (hl : l.Shows (c :: rest)) :
    flag right set clear l = (none, l) := by
  apply Scan.byte_eq_none
  have hpeek : l.peek = some c := hl.peek_eq
  rw [hpeek, Option.bind_some, if_neg (ne_of_isHexDigit hc hset),
    if_neg (ne_of_isHexDigit hc hclear)]

theorem spaces_at_digit (hc : IsHexDigit c) (hl : l.Shows (c :: rest)) :
    spaces l = (none, l) := by
  apply Scan.bind_of_none
  apply Scan.byte_eq_none
  have hpeek : l.peek = some c := hl.peek_eq
  rw [hpeek, Option.bind_some, if_neg (ne_of_isHexDigit hc (by decide))]

theorem region_of_broken {front : List UInt8} (h : Broken front c)
    (hl : l.Shows (front ++ c :: rest)) :
    ∃ l', region l = (none, l') ∧ l'.Shows (c :: rest) := by
  have hdigit : ¬∃ d, HexDigit '-'.toUInt8 d := not_hexDigit (by decide)
  cases h with
  | start h =>
    obtain ⟨l', haddress, hl'⟩ := address_overflow h hl
    exact ⟨l', Scan.bind_of_none haddress, hl'⟩
  | @stop r start word _ hstart h =>
    rw [List.append_assoc, List.append_assoc] at hl
    obtain ⟨l₁, h₁, hstart⟩ := parses_address.bind_complete hl hstart (by
      rintro _ ⟨⟩
      exact hdigit)
    obtain ⟨l₂, h₂, hdash⟩ := (parses_expect 45).bind_single (a := ()) h₁ rfl
    obtain ⟨l', haddress, hl'⟩ := address_overflow h h₂
    exact ⟨l', hstart (hdash (Scan.bind_of_none haddress)), hl'⟩
  | @letters r s start stop gap letters p _ hstart hstop hgap hletters hc =>
    simp only [List.append_assoc, List.cons_append, List.nil_append] at hl
    obtain ⟨l₁, h₁, hstart⟩ := parses_address.bind_complete hl hstart (by
      rintro _ ⟨⟩
      exact hdigit)
    obtain ⟨l₂, h₂, hdash⟩ := (parses_expect 45).bind_single (a := ()) h₁ rfl
    obtain ⟨l₃, h₃, hstop⟩ := parses_address.bind_complete h₂ hstop (by
      rw [hgap.head?_append]
      rintro _ ⟨⟩
      exact not_hexDigit (by decide))
    -- The letters that are there are taken, and the scan fails at the digit behind them.
    obtain rfl | ⟨letters, rfl, hwxs⟩ := List.prefix_cons_iff.mp hletters
    · obtain ⟨l₄, h₄, hgap⟩ := parses_spaces.bind_complete (a := ()) h₃ hgap (by
        rintro _ ⟨⟩
        exact ne_of_isHexDigit hc (by decide))
      have hread := flag_at_digit .read 'r' '-' (by decide) (by decide) hc h₄
      exact ⟨l₄, hstart (hdash (hstop (hgap (Scan.bind_of_none hread)))), h₄⟩
    obtain ⟨l₄, h₄, hgap⟩ := parses_spaces.bind_complete (a := ()) h₃ hgap (by
      rintro _ ⟨⟩
      split <;> decide)
    obtain ⟨l₅, h₅, hread⟩ := (parses_flag .read (by decide)).bind_single h₄ ⟨_, rfl, rfl⟩
    obtain rfl | ⟨letters, rfl, hxs⟩ := List.prefix_cons_iff.mp hwxs
    · have hwrite := flag_at_digit .write 'w' '-' (by decide) (by decide) hc h₅
      exact ⟨l₅, hstart (hdash (hstop (hgap (hread (Scan.bind_of_none hwrite))))), h₅⟩
    obtain ⟨l₆, h₆, hwrite⟩ := (parses_flag .write (by decide)).bind_single h₅ ⟨_, rfl, rfl⟩
    obtain rfl | ⟨letters, rfl, hs⟩ := List.prefix_cons_iff.mp hxs
    · have hexecute := flag_at_digit .execute 'x' '-' (by decide) (by decide) hc h₆
      exact ⟨l₆, hstart (hdash (hstop (hgap (hread (hwrite (Scan.bind_of_none hexecute)))))), h₆⟩
    obtain ⟨l₇, h₇, hexecute⟩ := (parses_flag .execute (by decide)).bind_single h₆ ⟨_, rfl, rfl⟩
    obtain rfl | ⟨letters, rfl, hnil⟩ := List.prefix_cons_iff.mp hs
    · have hshared := flag_at_digit .shared 's' 'p' (by decide) (by decide) hc h₇
      exact ⟨l₇, hstart (hdash (hstop (hgap (hread (hwrite (hexecute
        (Scan.bind_of_none hshared))))))), h₇⟩
    obtain rfl := List.prefix_nil.mp hnil
    obtain ⟨l₈, h₈, hshared⟩ := (parses_flag .shared (by decide)).bind_single h₇ ⟨_, rfl, rfl⟩
    have hgap' := spaces_at_digit hc h₈
    exact ⟨l₈, hstart (hdash (hstop (hgap (hread (hwrite (hexecute (hshared
      (Scan.bind_of_none hgap')))))))), h₈⟩

theorem Broken.isHexDigit {front : List UInt8} (h : Broken front c) : IsHexDigit c := by
  cases h with
  | start h | stop _ h =>
    obtain ⟨_, d, -, hd, -⟩ := h
    exact ⟨d, hd⟩
  | letters _ _ _ _ hc => exact hc

theorem region_of_head (hl : l.Shows rest) (h : ∀ c, rest.head? = some c → ¬IsHexDigit c) :
    region l = (none, l) := by
  apply Scan.bind_of_none
  apply Scan.bind_of_none
  apply Scan.byte_eq_none
  rw [hl.peek_eq, Option.bind_eq_none_iff]
  intro c hc
  rw [Option.eq_none_iff_forall_ne_some]
  exact fun d hd => h c hc ⟨d, digitValue_eq_some_iff.mp hd⟩

theorem scans_of_region (h : region l = (none, l)) (n : Nat) :
    scans n l = List.replicate n none := by
  induction n with
  | zero => rfl
  | succ n ih =>
    rw [scans, h, List.replicate_succ]
    exact congrArg (none :: ·) ih

theorem region_eq_some_iff (hl : l.Shows text) {r : Region} :
    (region l).1 = some r ↔ ∃ line rest, text = line ++ rest ∧ Line r line := by
  constructor
  · intro h
    obtain ⟨line, rest, htext, hline, -⟩ := parses_region.sound hl (Prod.ext h rfl)
    exact ⟨line, rest, htext, hline⟩
  · rintro ⟨line, rest, rfl, hline⟩
    obtain ⟨l', hl', -⟩ := parses_region.complete hl hline (by simp)
    rw [hl']

end Listing

/-- A scan that finds nothing has taken the front of a line, or nothing. If it was given up at the
end of the stream or at a byte that is no digit, then nothing is found any more and nothing more is
read. It was given up at a digit exactly if the text starts with the front of a broken line, and
then the next scan goes by what is left of the line. -/
theorem nothing_found_behind_none {σ : Type} [Source σ] {l l' : Lookahead σ}
    (h : Listing.region l = (none, l')) :
    ∃ taken rest, l.Shows (taken ++ rest) ∧ l'.Shows rest ∧ '\n'.toUInt8 ∉ taken ∧
      ((∀ c, rest.head? = some c → ¬IsHexDigit c) →
        Listing.region l' = (none, l') ∧ ∀ n, Listing.scans n l' = List.replicate n none) ∧
      (∀ front c more, taken ++ rest = front ++ c :: more ∧ Listing.Broken front c ↔
        taken = front ∧ rest = c :: more ∧ IsHexDigit c) ∧
      ∀ r, (Listing.region l').1 = some r ↔
        ∃ line more, rest = line ++ more ∧ Listing.Line r line := by
  obtain ⟨text, hl⟩ := Lookahead.exists_shows l
  obtain ⟨taken, rest, rfl, hrest, hleaves⟩ := Listing.region_eq_none hl h
  refine ⟨taken, rest, hl, hrest, hleaves.newline_not_mem, fun hhead => ?_, fun front c more => ?_,
    fun r => Listing.region_eq_some_iff hrest⟩
  · have hstays := Listing.region_of_head hrest hhead
    exact ⟨hstays, Listing.scans_of_region hstays⟩
  · constructor
    · rintro ⟨htext, hbroken⟩
      obtain ⟨l₁, hl₁, hmore⟩ := Listing.region_of_broken hbroken (htext ▸ hl)
      rw [h] at hl₁
      cases hl₁
      obtain rfl := hrest.unique hmore
      exact ⟨List.append_cancel_right htext, rfl, hbroken.isHexDigit⟩
    · rintro ⟨rfl, rfl, hc⟩
      exact ⟨rfl, hleaves.broken c rfl hc⟩

theorem nothing_found_behind_wrong_letter :
    ∃ l l' : Lookahead MemorySource,
      l = .fill (.new "1-2 rwzp 0\n3-4 rw-p 0\n".toUTF8 .none) ∧
      Listing.region l = (none, l') ∧ ∀ n, Listing.scans n l' = List.replicate n none := by
  obtain ⟨l, hl⟩ : ∃ l : Lookahead MemorySource,
      l = .fill (.new "1-2 rwzp 0\n3-4 rw-p 0\n".toUTF8 .none) := ⟨_, rfl⟩
  have hpeek : (Listing.region l).1 = none ∧ (Listing.region l).2.peek = some 'z'.toUInt8 := by
    subst hl
    decide +kernel
  have hnone : Listing.region l = (none, (Listing.region l).2) := Prod.ext hpeek.1 rfl
  obtain ⟨taken, rest, -, hrest, -, hends, -⟩ := nothing_found_behind_none hnone
  refine ⟨l, _, hl, hnone, (hends fun c hc => ?_).2⟩
  rw [← hrest.peek_eq, hpeek.2] at hc
  cases hc
  decide

/-- The first address has nineteen digits. The scan is given up at the seventeenth, and the next one
makes up a region from there. -/
theorem region_made_up_behind_long_address :
    Listing.scans 2
        (Lookahead.fill (MemorySource.new "fffffffffffffffffff-1 rw-p 0\n".toUTF8 .none)) =
      [none, some ⟨0xfff, 0x1, .ofRights [.read, .write]⟩] := by
  decide +kernel

end TraceCapture
