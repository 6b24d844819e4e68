import TraceCapture.Bytes

set_option autoImplicit false

namespace TraceCapture.Lz4

inductive DecodeError where
  | expectedByte
  | literalOutOfBounds
  | outputTooSmall (actual expected : Nat)
  | offsetZero
  | offsetOutOfBounds
  deriving DecidableEq, Repr

def DecodeError.message : DecodeError → String
  | expectedByte => "expected another byte, found none"
  | literalOutOfBounds => "literal is out of bounds of the input"
  | outputTooSmall actual expected =>
      "provided output is too small for the decompressed data, "
        ++ s!"actual {actual}, expected {expected}"
  | offsetZero => "0 is not a valid match offset"
  | offsetOutOfBounds => "the offset to copy is not contained in the decompressed buffer"

def minMatch : Nat := 4

/-- Adds up the bytes of an extended length from index `i` on: each 255 says that one more follows.
Answers the sum and the index behind it. -/
def sumFrom (p : Profile) (b : ByteArray) (i sum : Nat) : Outcome DecodeError (Nat × Nat) :=
  if h : i < b.size then
    match Bytes.addU32 p sum b[i].toNat with
    | .error v => .panicked v
    | .ok sum => if b[i] = 255 then sumFrom p b (i + 1) sum else .ok (sum, i + 1)
  else .error .expectedByte
termination_by b.size - i

def readLength (p : Profile) (b : ByteArray) (i nibble : Nat) : Outcome DecodeError (Nat × Nat) :=
  if nibble = 15 then (sumFrom p b i 0).map fun (sum, j) => (nibble + sum, j)
  else .ok (nibble, i)

theorem le_sumFrom {p : Profile} {b : ByteArray} {i sum n j : Nat}
    (h : sumFrom p b i sum = .ok (n, j)) : i ≤ j := by
  fun_induction sumFrom p b i sum with
  | case1 => cases h
  | case2 i sum hi sum' hs h255 ih => exact Nat.le_of_succ_le (ih h)
  | case3 i sum hi sum' hs h255 =>
    cases h
    exact Nat.le_succ _
  | case4 => cases h

theorem le_readLength {p : Profile} {b : ByteArray} {i nibble n j : Nat}
    (h : readLength p b i nibble = .ok (n, j)) : i ≤ j := by
  unfold readLength at h
  split at h
  · cases hs : sumFrom p b i 0 with
    | ok r =>
      rw [hs] at h
      cases h
      exact le_sumFrom hs
    | error e => rw [hs] at h; cases h
    | panicked v => rw [hs] at h; cases h
  · cases h; exact Nat.le_refl _

/-- Appends `n` bytes, each the one that stands `offset` bytes before it. -/
def copyMatch (out : ByteArray) (offset : Nat) : Nat → ByteArray
  | 0 => out
  | n + 1 => copyMatch (out.push (out.get! (out.size - offset))) offset n

/-- Decodes the sequences from index `i` on into at most `room` bytes. Answers what was written,
also when the block turns out to be bad. -/
def decodeFrom (p : Profile) (body : ByteArray) (room i : Nat) (out : ByteArray) :
    ByteArray × Outcome DecodeError Unit :=
  if h : i < body.size then
    let token := body[i].toNat
    match _literal : readLength p body (i + 1) (token / 16) with
    | .error e => (out, .error e)
    | .panicked v => (out, .panicked v)
    | .ok (literals, j) =>
      let stop := j + literals
      if body.size < stop then (out, .error .literalOutOfBounds)
      else if room < out.size + literals then
        (out, .error (.outputTooSmall room (out.size + literals)))
      else
        let out := out ++ body.extract j stop
        if body.size = stop then (out, .ok ())
        else if h : stop + 1 < body.size then
          let offset := body[stop].toNat + 256 * body[stop + 1].toNat
          if offset = 0 then (out, .error .offsetZero)
          else
            match _match : readLength p body (stop + 2) (token % 16) with
            | .error e => (out, .error e)
            | .panicked v => (out, .panicked v)
            | .ok (extra, k) =>
              let length := minMatch + extra
              if room < out.size + length then
                (out, .error (.outputTooSmall room (out.size + length)))
              else if out.size < offset then (out, .error .offsetOutOfBounds)
              else decodeFrom p body room k (copyMatch out offset length)
        else (out, .error .expectedByte)
  else (out, .error .expectedByte)
termination_by body.size - i
decreasing_by
  have := le_readLength _literal
  have := le_readLength _match
  omega

def decode (p : Profile) (body : ByteArray) (room : Nat) : ByteArray × Outcome DecodeError Unit :=
  decodeFrom p body room 0 .empty

end TraceCapture.Lz4
