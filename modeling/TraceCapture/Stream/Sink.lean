import TraceCapture.Stream.Error
import TraceCapture.Violation

set_option autoImplicit false

/-!
# Sinks

A sink takes bytes, as many at a time as it likes, and may be interrupted, fail or panic at any
call. `writeAll` hands it a whole buffer: it goes on after partial writes and interruptions and ends
at the first failure. A sink is interrupted only finitely often in a row, which is what lets
`writeAll` end.
-/

namespace TraceCapture

inductive SinkReply where
  | accepted (n : Nat)
  | interrupted
  | failed (cause : IoError)
  | panicked (cause : Violation)
  deriving DecidableEq, Repr

class Sink (σ : Type) where
  write : σ → ByteArray → SinkReply × σ
  flush : σ → Outcome IoError Unit × σ
  /-- How often in a row the sink may still be interrupted. -/
  patience : σ → Nat
  patience_lt : ∀ s b, (write s b).1 = .interrupted → patience (write s b).2 < patience s

namespace Sink

variable {σ : Type} [Sink σ]

def writeFrom (s : σ) (b : ByteArray) (i : Nat) : Outcome IoError Unit × σ :=
  if b.size ≤ i then (.ok (), s)
  else
    match _h : write s (b.extract i b.size) with
    | (.accepted n, s') => if n = 0 then (.error .writeZero, s') else writeFrom s' b (i + n)
    | (.interrupted, s') => writeFrom s' b i
    | (.failed e, s') => (.error e, s')
    | (.panicked v, s') => (.panicked v, s')
termination_by (b.size - i, patience s)
decreasing_by
  · exact Prod.Lex.left _ _ (by omega)
  · have := patience_lt s (b.extract i b.size) (by rw [_h])
    rw [_h] at this
    exact Prod.Lex.right _ this

def writeAll (s : σ) (b : ByteArray) : Outcome IoError Unit × σ :=
  writeFrom s b 0

end Sink

class LawfulSink (σ : Type) extends Sink σ where
  contents : σ → ByteArray
  contents_accepted : ∀ s b n, (write s b).1 = .accepted n →
    n ≤ b.size ∧ contents (write s b).2 = contents s ++ b.extract 0 n
  contents_refused : ∀ s b, (∀ n, (write s b).1 ≠ .accepted n) →
    contents (write s b).2 = contents s
  contents_flush : ∀ s, contents (flush s).2 = contents s

end TraceCapture
