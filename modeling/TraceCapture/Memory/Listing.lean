import TraceCapture.Memory.Region
import TraceCapture.Stream.Lookahead

set_option autoImplicit false

/-!
# Listings of memory maps

A listing has a line for each mapped region: the address range in hexadecimal, a letter for each
right, and columns that are skipped here.

```text
00400000-00452000 r-xp 00000000 08:02 173521      /usr/bin/dbus-daemon
```

A scan takes one region at a time. It fails at the end of the stream and at the first byte that does
not fit; that byte is not taken, and a later scan goes on from it.
-/

namespace TraceCapture

/-- A step that takes bytes off a stream. A step that fails has still taken what it took. -/
def Scan (σ α : Type) : Type := Lookahead σ → Option α × Lookahead σ

namespace Scan

variable {σ α β : Type}

instance : Monad (Scan σ) where
  pure a := fun l => (some a, l)
  bind p f := fun l =>
    match p l with
    | (some a, l) => f a l
    | (none, l) => (none, l)

theorem bind_apply (p : Scan σ α) (f : α → Scan σ β) (l : Lookahead σ) :
    (p >>= f) l = match p l with | (some a, l) => f a l | (none, l) => (none, l) := rfl

variable [Source σ]

def Forward (p : Scan σ α) : Prop := ∀ l, (p l).2.pending ≤ l.pending

def Consuming (p : Scan σ α) : Prop :=
  ∀ l a, (p l).1 = some a → (p l).2.pending < l.pending

theorem forward_pure (a : α) : Forward (pure a : Scan σ α) := fun _ => Nat.le_refl _

theorem Forward.bind {p : Scan σ α} {f : α → Scan σ β} (hp : Forward p)
    (hf : ∀ a, Forward (f a)) : Forward (p >>= f) := by
  intro l
  have first := hp l
  rw [bind_apply]
  split
  · next a l' h =>
    rw [h] at first
    exact Nat.le_trans (hf a l') first
  · next l' h => rwa [h] at first

theorem Consuming.bind {p : Scan σ α} {f : α → Scan σ β} (hp : Consuming p)
    (hf : ∀ a, Forward (f a)) : Consuming (p >>= f) := by
  intro l b
  rw [bind_apply]
  split
  · next a l' h =>
    have first := hp l a (by rw [h])
    rw [h] at first
    exact fun _ => Nat.lt_of_le_of_lt (hf a l') first
  · exact fun h => nomatch h

def byte (accept : UInt8 → Option α) : Scan σ α := fun l =>
  match l.peek.bind accept with
  | some a => (some a, l.bump)
  | none => (none, l)

def skipWhile (accept : UInt8 → Bool) (l : Lookahead σ) : Option Unit × Lookahead σ :=
  match _h : l.peek with
  | some b => if accept b then skipWhile accept l.bump else (some (), l)
  | none => (some (), l)
termination_by l.pending
decreasing_by exact Lookahead.pending_bump_lt _h

theorem forward_byte (accept : UInt8 → Option α) : Forward (byte (σ := σ) accept) := by
  intro l
  unfold byte
  split
  · next h =>
    obtain ⟨b, hb, _⟩ := Option.bind_eq_some_iff.1 h
    exact Nat.le_of_lt (Lookahead.pending_bump_lt hb)
  · exact Nat.le_refl _

theorem consuming_byte (accept : UInt8 → Option α) : Consuming (byte (σ := σ) accept) := by
  intro l a
  unfold byte
  split
  · next h =>
    obtain ⟨b, hb, _⟩ := Option.bind_eq_some_iff.1 h
    exact fun _ => Lookahead.pending_bump_lt hb
  · exact fun h => nomatch h

theorem forward_skipWhile (accept : UInt8 → Bool) : Forward (skipWhile (σ := σ) accept) := by
  intro l
  fun_induction skipWhile accept l with
  | case1 l b h _ ih => exact Nat.le_trans ih (Nat.le_of_lt (Lookahead.pending_bump_lt h))
  | case2 => exact Nat.le_refl _
  | case3 => exact Nat.le_refl _

end Scan

namespace Listing

variable {σ : Type} [Source σ]

def digitValue (b : UInt8) : Option Nat :=
  if 48 ≤ b && b ≤ 57 then some (b.toNat - 48)
  else if 97 ≤ b && b ≤ 102 then some (b.toNat - 87)
  else if 65 ≤ b && b ≤ 70 then some (b.toNat - 55)
  else none

/-- The hexadecimal digits from here on, behind those that made up `value`. A digit that would lead
out of the 64-bit range is not taken. -/
def digits (value : Nat) (l : Lookahead σ) : Option Nat × Lookahead σ :=
  match h : l.peek.bind digitValue with
  | some d =>
      if 16 * value + d < Word.size then digits (16 * value + d) l.bump else (none, l)
  | none => (some value, l)
termination_by l.pending
decreasing_by
  obtain ⟨b, hb, _⟩ := Option.bind_eq_some_iff.1 h
  exact Lookahead.pending_bump_lt hb

def address : Scan σ Nat := do digits (← Scan.byte digitValue)

def expect (b : UInt8) : Scan σ Unit := Scan.byte fun c => if c = b then some () else none

def spaces : Scan σ Unit := do
  expect 32
  Scan.skipWhile (· == 32)

def flag (right : Right) (set clear : Char) : Scan σ (List Right) :=
  Scan.byte fun c =>
    if c = set.toUInt8 then some [right] else if c = clear.toUInt8 then some [] else none

def restOfLine : Scan σ Unit := do
  Scan.skipWhile (· != 10)
  expect 10

def region : Scan σ Region := do
  let start ← address
  expect 45
  let stop ← address
  spaces
  let read ← flag .read 'r' '-'
  let write ← flag .write 'w' '-'
  let execute ← flag .execute 'x' '-'
  let shared ← flag .shared 's' 'p'
  spaces
  restOfLine
  return ⟨start, stop, .ofRights (read ++ write ++ execute ++ shared)⟩

theorem forward_digits (value : Nat) : Scan.Forward (digits (σ := σ) value) := by
  intro l
  fun_induction digits value l with
  | case1 value l d h _ ih =>
    obtain ⟨b, hb, _⟩ := Option.bind_eq_some_iff.1 h
    exact Nat.le_trans ih (Nat.le_of_lt (Lookahead.pending_bump_lt hb))
  | case2 => exact Nat.le_refl _
  | case3 => exact Nat.le_refl _

theorem consuming_address : Scan.Consuming (address (σ := σ)) :=
  (Scan.consuming_byte _).bind forward_digits

theorem forward_address : Scan.Forward (address (σ := σ)) :=
  (Scan.forward_byte _).bind forward_digits

theorem forward_expect (b : UInt8) : Scan.Forward (expect (σ := σ) b) := Scan.forward_byte _

theorem forward_spaces : Scan.Forward (spaces (σ := σ)) :=
  (forward_expect _).bind fun _ => Scan.forward_skipWhile _

theorem forward_flag (right : Right) (set clear : Char) :
    Scan.Forward (flag (σ := σ) right set clear) := Scan.forward_byte _

theorem forward_restOfLine : Scan.Forward (restOfLine (σ := σ)) :=
  (Scan.forward_skipWhile _).bind fun _ => forward_expect _

theorem consuming_region : Scan.Consuming (region (σ := σ)) :=
  consuming_address.bind fun _ => (forward_expect _).bind fun _ => forward_address.bind fun _ =>
    forward_spaces.bind fun _ =>
    (forward_flag _ _ _).bind fun _ => (forward_flag _ _ _).bind fun _ =>
    (forward_flag _ _ _).bind fun _ => (forward_flag _ _ _).bind fun _ =>
    forward_spaces.bind fun _ =>
    forward_restOfLine.bind fun _ => Scan.forward_pure _

/-- The regions up to the first line that is missing or malformed. -/
def regions (l : Lookahead σ) : List Region :=
  match _h : region l with
  | (some r, l') => r :: regions l'
  | (none, _) => []
termination_by l.pending
decreasing_by
  have := consuming_region l r (by rw [_h])
  rwa [_h] at this

def read (s : σ) : List Region := regions (Lookahead.fill s)

def scans : Nat → Lookahead σ → List (Option Region)
  | 0, _ => []
  | n + 1, l =>
    let (found, l) := region l
    found :: scans n l

end Listing

end TraceCapture
