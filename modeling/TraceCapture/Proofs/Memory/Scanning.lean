import TraceCapture.Memory.Listing
import TraceCapture.Proofs.Stream.Lookahead

set_option autoImplicit false

namespace TraceCapture.Scan

open Lookahead

variable {σ α β : Type} [Source σ]

/-- The step takes the words of `L`, where none of the bytes in `more` stands behind the word, and
no other words. -/
structure Parses (p : Scan σ α) (L : α → List UInt8 → Prop) (more : UInt8 → Prop) : Prop where
  sound : ∀ {l l' : Lookahead σ} {bytes : List UInt8} {a : α}, Shows l bytes →
    p l = (some a, l') → ∃ word rest, bytes = word ++ rest ∧ L a word ∧ Shows l' rest
  complete : ∀ {l : Lookahead σ} {word rest : List UInt8} {a : α}, Shows l (word ++ rest) →
    L a word → (∀ c, rest.head? = some c → ¬ more c) → ∃ l', p l = (some a, l') ∧ Shows l' rest

variable {p : Scan σ α} {L : α → List UInt8 → Prop} {more : UInt8 → Prop} {f : α → Scan σ β}
  {l l' : Lookahead σ} {a : α} {b : β} {bytes word rest : List UInt8}

theorem Parses.bind_sound (hp : Parses p L more) (hl : Shows l bytes)
    (h : (p >>= f) l = (some b, l')) :
    ∃ a l₁ word rest, bytes = word ++ rest ∧ L a word ∧ Shows l₁ rest ∧
      f a l₁ = (some b, l') := by
  rw [bind_apply] at h
  split at h
  · next a l₁ ha =>
    obtain ⟨word, rest, hbytes, hword, hrest⟩ := hp.sound hl ha
    exact ⟨a, l₁, word, rest, hbytes, hword, hrest, h⟩
  · cases h

theorem Parses.bind_complete (hp : Parses p L more) (hl : Shows l (word ++ rest)) (hword : L a word)
    (hstop : ∀ c, rest.head? = some c → ¬ more c) :
    ∃ l₁, Shows l₁ rest ∧ ∀ {β : Type} {f : α → Scan σ β} {r : Option β × Lookahead σ},
      f a l₁ = r → (p >>= f) l = r := by
  obtain ⟨l₁, ha, hrest⟩ := hp.complete hl hword hstop
  refine ⟨l₁, hrest, fun hr => ?_⟩
  rw [bind_apply, ha]
  exact hr

theorem Parses.bind_single {c : UInt8} (hp : Parses p L fun _ => False) (hl : Shows l (c :: rest))
    (hword : L a [c]) :
    ∃ l₁, Shows l₁ rest ∧ ∀ {β : Type} {f : α → Scan σ β} {r : Option β × Lookahead σ},
      f a l₁ = r → (p >>= f) l = r := by
  have hl : Shows l ([c] ++ rest) := hl
  exact hp.bind_complete hl hword fun _ _ => not_false

theorem parses_byte (accept : UInt8 → Option α) :
    Parses (byte (σ := σ) accept) (fun a word => ∃ c, word = [c] ∧ accept c = some a)
      fun _ => False where
  sound hl h := by
    unfold byte at h
    split at h <;> cases h
    next a ha =>
    rw [hl.peek_eq, Option.bind_eq_some_iff] at ha
    obtain ⟨c, hc, ha⟩ := ha
    obtain ⟨rest, rfl⟩ := List.head?_eq_some_iff.mp hc
    exact ⟨[c], rest, rfl, ⟨c, rfl, ha⟩, hl.bump⟩
  complete := by
    rintro l _ rest a hl ⟨c, rfl, ha⟩ -
    refine ⟨l.bump, ?_, hl.bump⟩
    have hpeek : l.peek = some c := hl.peek_eq
    rw [byte, hpeek, Option.bind_some, ha]

theorem skipWhile_eq (accept : UInt8 → Bool) (l : Lookahead σ) :
    skipWhile accept l = match l.peek with
      | some b => if accept b then skipWhile accept l.bump else (some (), l)
      | none => (some (), l) := by
  rw [skipWhile]
  split <;> next h => rw [h]

theorem shows_skipWhile (accept : UInt8 → Bool) (hl : Shows l bytes) :
    ∃ l', skipWhile accept l = (some (), l') ∧ Shows l' (bytes.dropWhile accept) := by
  induction hl with
  | @nil l h =>
    rw [skipWhile_eq, h]
    exact ⟨l, rfl, .nil h⟩
  | @cons l b bytes h rest ih =>
    rw [skipWhile_eq, h]
    dsimp only
    by_cases hb : accept b = true
    · rwa [if_pos hb, List.dropWhile_cons_of_pos hb]
    · rw [if_neg hb, List.dropWhile_cons_of_neg hb]
      exact ⟨l, rfl, .cons h rest⟩

theorem parses_skipWhile (accept : UInt8 → Bool) :
    Parses (skipWhile (σ := σ) accept) (fun _ word => ∀ c ∈ word, accept c = true)
      fun c => accept c = true where
  sound := by
    intro l l' bytes a hl h
    obtain ⟨l₁, hl₁, hrest⟩ := shows_skipWhile accept hl
    rw [hl₁] at h
    cases h
    refine ⟨_, _, List.takeWhile_append_dropWhile.symm, ?_, hrest⟩
    exact List.all_eq_true.mp List.all_takeWhile
  complete := by
    intro l word rest a hl hword hstop
    obtain ⟨l₁, hl₁, hrest⟩ := shows_skipWhile accept hl
    refine ⟨l₁, hl₁, ?_⟩
    rw [List.dropWhile_append_of_pos hword] at hrest
    cases rest with
    | nil => exact hrest
    | cons c rest => rwa [List.dropWhile_cons_of_neg (hstop c rfl)] at hrest

end TraceCapture.Scan
