import TraceCapture.Stream.Sink
import TraceCapture.Stream.Source

set_option autoImplicit false

/-!
# Reads and writes call by call

The loops over sources and sinks end because of what these promise. With a bound on the calls they
can be followed by computation.
-/

namespace TraceCapture

namespace Source

variable {σ : Type} [Source σ] {s t : σ} {k n : Nat} {got b : ByteArray}

theorem readOn_eq (s : σ) (n : Nat) (got : ByteArray) :
    readOn s n got =
      if n ≤ got.size then (.ok got, s)
      else
        match read s (n - got.size) with
        | (.bytes b, s') =>
            if b.size = 0 then (.error .unexpectedEof, s') else readOn s' n (got ++ b)
        | (.interrupted, s') => readOn s' n got
        | (.failed e, s') => (.error e, s') := by
  rw [readOn]
  split
  · rfl
  · split <;> next hread => simp only [hread]

/-- What `readOn` comes to in fewer than `k` calls. -/
def readFor : Nat → σ → Nat → ByteArray → Option (Except IoError ByteArray × σ)
  | 0, _, _, _ => none
  | k + 1, s, n, got =>
    if n ≤ got.size then some (.ok got, s)
    else
      match read s (n - got.size) with
      | (.bytes b, s) =>
          if b.size = 0 then some (.error .unexpectedEof, s) else readFor k s n (got ++ b)
      | (.interrupted, s) => readFor k s n got
      | (.failed e, s) => some (.error e, s)

theorem readOn_of_readFor {r : Except IoError ByteArray × σ} (h : readFor k s n got = some r) :
    readOn s n got = r := by
  induction k generalizing s got with
  | zero => cases h
  | succ k ih =>
    rw [readFor] at h
    rw [readOn_eq]
    split at h
    · next hn =>
      rw [if_pos hn]
      exact Option.some.inj h
    · next hn =>
      rw [if_neg hn]
      split at h
      · split at h
        · next hempty =>
          rw [if_pos hempty]
          exact Option.some.inj h
        · next hempty =>
          rw [if_neg hempty]
          exact ih h
      · exact ih h
      · exact Option.some.inj h

theorem readExact?_of_readFor (h : readFor k s n .empty = some (.ok b, t)) :
    readExact? s n = (.ok (some b), t) := by
  rw [readExact?, readExact, readOn_of_readFor h]

theorem readExact?_of_readFor_end (h : readFor k s n .empty = some (.error .unexpectedEof, t)) :
    readExact? s n = (.ok none, t) := by
  rw [readExact?, readExact, readOn_of_readFor h]

end Source

namespace Sink

variable {σ : Type} [Sink σ] {s : σ} {k i : Nat} {b : ByteArray}

theorem writeFrom_eq (s : σ) (b : ByteArray) (i : Nat) :
    writeFrom s b i =
      if b.size ≤ i then (.ok (), s)
      else
        match write s (b.extract i b.size) with
        | (.accepted n, s') => if n = 0 then (.error .writeZero, s') else writeFrom s' b (i + n)
        | (.interrupted, s') => writeFrom s' b i
        | (.failed e, s') => (.error e, s')
        | (.panicked v, s') => (.panicked v, s') := by
  rw [writeFrom]
  split
  · rfl
  · split <;> next hwrite => simp only [hwrite]

def writeFor : Nat → σ → ByteArray → Nat → Option (Outcome IoError Unit × σ)
  | 0, _, _, _ => none
  | k + 1, s, b, i =>
    if b.size ≤ i then some (.ok (), s)
    else
      match write s (b.extract i b.size) with
      | (.accepted n, s) => if n = 0 then some (.error .writeZero, s) else writeFor k s b (i + n)
      | (.interrupted, s) => writeFor k s b i
      | (.failed e, s) => some (.error e, s)
      | (.panicked v, s) => some (.panicked v, s)

theorem writeFrom_of_writeFor {r : Outcome IoError Unit × σ} (h : writeFor k s b i = some r) :
    writeFrom s b i = r := by
  induction k generalizing s i with
  | zero => cases h
  | succ k ih =>
    rw [writeFor] at h
    rw [writeFrom_eq]
    split at h
    · next hi =>
      rw [if_pos hi]
      exact Option.some.inj h
    · next hi =>
      rw [if_neg hi]
      split at h
      · split at h
        · next hzero =>
          rw [if_pos hzero]
          exact Option.some.inj h
        · next hzero =>
          rw [if_neg hzero]
          exact ih h
      · exact ih h
      · exact Option.some.inj h
      · exact Option.some.inj h

theorem writeAll_of_writeFor {r : Outcome IoError Unit × σ} (h : writeFor k s b 0 = some r) :
    writeAll s b = r :=
  writeFrom_of_writeFor h

end Sink

end TraceCapture
