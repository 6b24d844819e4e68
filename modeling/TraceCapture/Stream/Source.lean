import TraceCapture.Stream.Error

set_option autoImplicit false

/-!
# Sources

A source delivers bytes, as many at a time as it likes, and can be sent to any position. It is
interrupted only finitely often in a row and holds finitely many bytes behind its position; both
bounds are part of the type, and every loop over a source ends because of them.
-/

namespace TraceCapture

inductive SourceReply where
  /-- The next bytes; none at the end of the source. -/
  | bytes (b : ByteArray)
  | interrupted
  | failed (cause : IoError)

class Source (σ : Type) where
  read : σ → Nat → SourceReply × σ
  seekStart : σ → Nat → Except IoError Unit × σ
  seekEnd : σ → Except IoError Nat × σ
  /-- How often in a row the source may still be interrupted. -/
  patience : σ → Nat
  /-- How many bytes the source may still deliver. -/
  remaining : σ → Nat
  patience_lt : ∀ s n, (read s n).1 = .interrupted → patience (read s n).2 < patience s
  size_le : ∀ s n b, (read s n).1 = .bytes b → b.size ≤ n
  remaining_read : ∀ s n b, (read s n).1 = .bytes b →
    remaining (read s n).2 + b.size ≤ remaining s
  remaining_le : ∀ s n, remaining (read s n).2 ≤ remaining s

namespace Source

variable {σ : Type} [Source σ]

def readOn (s : σ) (n : Nat) (got : ByteArray) : Except IoError ByteArray × σ :=
  if n ≤ got.size then (.ok got, s)
  else
    match _h : read s (n - got.size) with
    | (.bytes b, s') =>
        if b.size = 0 then (.error .unexpectedEof, s') else readOn s' n (got ++ b)
    | (.interrupted, s') => readOn s' n got
    | (.failed e, s') => (.error e, s')
termination_by (n - got.size, patience s)
decreasing_by
  · exact Prod.Lex.left _ _ (by simp only [ByteArray.size_append]; omega)
  · have := patience_lt s (n - got.size) (by rw [_h])
    rw [_h] at this
    exact Prod.Lex.right _ this

/-- Reads exactly `n` bytes. What a failing call has read is gone. -/
def readExact (s : σ) (n : Nat) : Except IoError ByteArray × σ :=
  readOn s n .empty

theorem readOn_remaining (s : σ) (n : Nat) (got : ByteArray) :
    remaining (readOn s n got).2 ≤ remaining s ∧
      ∀ b, (readOn s n got).1 = .ok b →
        n ≤ b.size ∧ remaining (readOn s n got).2 + b.size ≤ remaining s + got.size := by
  fun_induction readOn s n got with
  | case1 s got h => exact ⟨Nat.le_refl _, fun b hb => by cases hb; exact ⟨h, Nat.le_refl _⟩⟩
  | case2 s got h b s' hr hb =>
    refine ⟨?_, fun b hb => nomatch hb⟩
    have := remaining_le s (n - got.size)
    rwa [hr] at this
  | case3 s got h b s' hr hb ih =>
    have hb' := remaining_read s (n - got.size) b (by rw [hr])
    simp only [hr] at hb'
    simp only [ByteArray.size_append] at ih
    refine ⟨by omega, fun c hc => ?_⟩
    have := ih.2 c hc
    exact ⟨this.1, by omega⟩
  | case4 s got h s' hr ih =>
    have hb' := remaining_le s (n - got.size)
    simp only [hr] at hb'
    refine ⟨by omega, fun c hc => ?_⟩
    have := ih.2 c hc
    exact ⟨this.1, by omega⟩
  | case5 s got h e s' hr =>
    refine ⟨?_, fun b hb => nomatch hb⟩
    have := remaining_le s (n - got.size)
    rwa [hr] at this

theorem readExact_remaining {s s' : σ} {n : Nat} {b : ByteArray}
    (h : readExact s n = (.ok b, s')) : remaining s' + n ≤ remaining s := by
  have := (readOn_remaining s n .empty).2 b (by rw [← readExact, h])
  rw [← readExact, h] at this
  simp only [ByteArray.size_empty] at this
  omega

theorem readExact_remaining_le {s s' : σ} {n : Nat} {r : Except IoError ByteArray}
    (h : readExact s n = (r, s')) : remaining s' ≤ remaining s := by
  have := (readOn_remaining s n .empty).1
  rwa [← readExact, h] at this

def readExact? (s : σ) (n : Nat) : Except IoError (Option ByteArray) × σ :=
  match readExact s n with
  | (.ok b, s) => (.ok (some b), s)
  | (.error .unexpectedEof, s) => (.ok none, s)
  | (.error e, s) => (.error e, s)

theorem readExact?_remaining_le {s s' : σ} {n : Nat} {r : Except IoError (Option ByteArray)}
    (h : readExact? s n = (r, s')) : remaining s' ≤ remaining s := by
  unfold readExact? at h
  split at h <;> cases h <;> exact readExact_remaining_le ‹_›

theorem readExact?_remaining {s s' : σ} {n : Nat} {b : ByteArray}
    (h : readExact? s n = (.ok (some b), s')) : remaining s' + n ≤ remaining s := by
  unfold readExact? at h
  split at h <;> cases h
  exact readExact_remaining ‹_›

theorem readExact?_size_le {s s' : σ} {n : Nat} {b : ByteArray}
    (h : readExact? s n = (.ok (some b), s')) : b.size ≤ remaining s := by
  unfold readExact? at h
  split at h <;> cases h
  next hb =>
  have hread := (readOn_remaining s n .empty).2 b (by rw [← readExact, hb])
  rw [ByteArray.size_empty] at hread
  omega

end Source

end TraceCapture
