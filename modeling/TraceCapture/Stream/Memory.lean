import TraceCapture.Stream.Sink
import TraceCapture.Stream.Source
import TraceCapture.Word

set_option autoImplicit false

/-!
# Streams in memory

A source over a byte string and a sink that collects one. Both can be told to misbehave: to deliver
or take few bytes at a time, to be interrupted at every other call, and to fail at a given byte or a
given call.
-/

namespace TraceCapture

structure SourceFaults where
  /-- Every other read, starting with the first, is interrupted. -/
  interrupt : Bool
  short : Option Nat
  /-- The position from which on reads fail. No source can be read at the last 64-bit position. -/
  failAt : Nat
  /-- The number of the seek that fails, counted from 1. -/
  failSeek : Option Nat
  fakeLength : Option Nat
  deriving DecidableEq, Repr

def SourceFaults.none : SourceFaults := ⟨false, .none, Word.max, .none, .none⟩

structure MemorySource where
  data : ByteArray
  position : Nat
  seeks : Nat
  resumed : Bool
  faults : SourceFaults

namespace MemorySource

def new (data : ByteArray) (faults : SourceFaults) : MemorySource :=
  ⟨data, 0, 0, false, faults⟩

def remaining (s : MemorySource) : Nat := s.data.size - s.position

def patience (s : MemorySource) : Nat := if s.faults.interrupt && !s.resumed then 1 else 0

def available (s : MemorySource) (n : Nat) : Nat :=
  let n := min n (s.data.size - s.position)
  let n := min n (s.faults.failAt - s.position)
  match s.faults.short with | some k => min n k | none => n

def read (s : MemorySource) (n : Nat) : SourceReply × MemorySource :=
  if s.faults.interrupt && !s.resumed then (.interrupted, { s with resumed := true })
  else
    let s := { s with resumed := false }
    if s.faults.failAt ≤ s.position ∧ n ≠ 0 then (.failed (.other "bad sector"), s)
    else
      let stop := s.position + s.available n
      (.bytes (s.data.extract s.position stop), { s with position := stop })

def seek {α : Type} (s : MemorySource) (position : Nat) (value : α) :
    Except IoError α × MemorySource :=
  let s := { s with seeks := s.seeks + 1 }
  if s.faults.failSeek = some s.seeks then (.error (.other "seek refused"), s)
  else (.ok value, { s with position := position })

theorem available_le (s : MemorySource) (n : Nat) :
    s.available n ≤ n ∧ s.available n ≤ s.data.size - s.position := by
  unfold available
  split <;> dsimp only <;> omega

instance : Source MemorySource where
  read := read
  seekStart s n := s.seek n ()
  seekEnd s := s.seek s.data.size (s.faults.fakeLength.getD s.data.size)
  patience := patience
  remaining := remaining
  patience_lt s n h := by
    unfold read at h ⊢
    split
    · next hi => simp [patience, hi]
    · next hi =>
      rw [if_neg hi] at h
      dsimp only at h
      split at h <;> cases h
  size_le s n b h := by
    unfold read at h
    split at h
    · cases h
    · dsimp only at h
      split at h
      · cases h
      · cases h
        simp only [ByteArray.size_extract]
        have := (available_le { s with resumed := false } n).1
        omega
  remaining_read s n b h := by
    unfold read at h ⊢
    split at h
    · cases h
    · next hi =>
      dsimp only at h
      rw [if_neg hi]
      dsimp only
      split at h
      · cases h
      · next hb =>
        rw [if_neg hb]
        cases h
        simp only [ByteArray.size_extract, remaining]
        have := (available_le { s with resumed := false } n).2
        dsimp only at this
        omega
  remaining_le s n := by
    unfold read
    split
    · exact Nat.le_refl _
    · dsimp only
      split
      · exact Nat.le_refl _
      · simp only [remaining]
        omega

end MemorySource

structure SinkFaults where
  interrupt : Bool
  short : Option Nat
  /-- Writes beyond this length take nothing. -/
  zeroAt : Option Nat
  /-- The first write beyond this length panics. -/
  panicAt : Option Nat
  limit : Option Nat
  /-- The number of the flush that fails, counted from 1. -/
  failFlush : Option Nat
  deriving DecidableEq, Repr

def SinkFaults.none : SinkFaults := ⟨false, .none, .none, .none, .none, .none⟩

structure MemorySink where
  data : ByteArray
  flushes : Nat
  resumed : Bool
  faults : SinkFaults

namespace MemorySink

def new (faults : SinkFaults) : MemorySink := ⟨.empty, 0, false, faults⟩

def patience (s : MemorySink) : Nat := if s.faults.interrupt && !s.resumed then 1 else 0

def beyond (bound : Option Nat) (length : Nat) : Bool :=
  match bound with | some k => k < length | none => false

def accepted (s : MemorySink) (n : Nat) : Nat :=
  match s.faults.short with | some k => min n k | none => n

def write (s : MemorySink) (b : ByteArray) : SinkReply × MemorySink :=
  if s.faults.interrupt && !s.resumed then (.interrupted, { s with resumed := true })
  else
    let s := { s with resumed := false }
    let n := s.accepted b.size
    let length := s.data.size + n
    if beyond s.faults.zeroAt length then (.accepted 0, s)
    else if beyond s.faults.panicAt length then
      (.panicked .sinkPanicked, { s with faults := { s.faults with panicAt := none } })
    else if beyond s.faults.limit length then (.failed (.other "sink full"), s)
    else (.accepted n, { s with data := s.data ++ b.extract 0 n })

def flush (s : MemorySink) : Outcome IoError Unit × MemorySink :=
  let s := { s with flushes := s.flushes + 1 }
  if s.faults.failFlush = some s.flushes then (.error (.other "flush refused"), s) else (.ok (), s)

theorem accepted_le (s : MemorySink) (n : Nat) : s.accepted n ≤ n := by
  unfold accepted
  split <;> omega

instance : LawfulSink MemorySink where
  write := write
  flush := flush
  patience := patience
  patience_lt s b h := by
    unfold write at h ⊢
    split
    · next hi => simp [patience, hi]
    · next hi =>
      rw [if_neg hi] at h
      dsimp only at h
      split at h
      · cases h
      · split at h
        · cases h
        · split at h <;> cases h
  contents := data
  contents_accepted s b n h := by
    unfold write at h ⊢
    split at h
    · cases h
    · next hi =>
      rw [if_neg hi]
      dsimp only at h ⊢
      split at h
      · next hz => cases h; simp [hz]
      · next hz =>
        rw [if_neg hz]
        split at h
        · cases h
        · next hp =>
          rw [if_neg hp]
          split at h
          · cases h
          · next hl =>
            rw [if_neg hl]
            cases h
            exact ⟨accepted_le _ _, rfl⟩
  contents_refused s b h := by
    unfold write at h ⊢
    split
    · rfl
    · next hi =>
      rw [if_neg hi] at h
      dsimp only at h ⊢
      split
      · rfl
      · next hz =>
        rw [if_neg hz] at h
        split
        · rfl
        · next hp =>
          rw [if_neg hp] at h
          split
          · rfl
          · next hl =>
            rw [if_neg hl] at h
            exact absurd rfl (h _)
  contents_flush s := by
    unfold flush
    dsimp only
    split <;> rfl

end MemorySink

end TraceCapture
