import TraceCapture.Stream.Source

set_option autoImplicit false

namespace TraceCapture

structure Lookahead (σ : Type) where
  source : σ
  buffer : ByteArray
  position : Nat

namespace Lookahead

variable {σ : Type} [Source σ]

def readAhead : Nat := 512

def fill (s : σ) : Lookahead σ :=
  match _h : Source.read s readAhead with
  | (.bytes b, s') => ⟨s', b, 0⟩
  | (.interrupted, s') => fill s'
  | (.failed _, s') => ⟨s', .empty, 0⟩
termination_by Source.patience s
decreasing_by
  have := Source.patience_lt s readAhead (by rw [_h])
  rwa [_h] at this

def peek (l : Lookahead σ) : Option UInt8 :=
  if h : l.position < l.buffer.size then some l.buffer[l.position] else none

def bump (l : Lookahead σ) : Lookahead σ :=
  if l.position + 1 < l.buffer.size then { l with position := l.position + 1 } else fill l.source

def pending (l : Lookahead σ) : Nat :=
  l.buffer.size - l.position + Source.remaining l.source

theorem pending_fill_le (s : σ) : (fill s).pending ≤ Source.remaining s := by
  fun_induction fill s with
  | case1 s b s' h =>
    have := Source.remaining_read s readAhead b (by rw [h])
    rw [h] at this
    simp only [pending] at this ⊢
    omega
  | case2 s s' h ih =>
    have := Source.remaining_le s readAhead
    rw [h] at this
    exact Nat.le_trans ih this
  | case3 s e s' h =>
    have := Source.remaining_le s readAhead
    rw [h] at this
    simpa [pending] using this

theorem pending_bump_lt {l : Lookahead σ} {b : UInt8} (h : l.peek = some b) :
    l.bump.pending < l.pending := by
  have inside : l.position < l.buffer.size := by
    unfold peek at h
    split at h
    · assumption
    · cases h
  unfold bump
  split
  · simp only [pending]
    omega
  · have := pending_fill_le l.source
    simp only [pending] at this ⊢
    omega

end Lookahead

end TraceCapture
