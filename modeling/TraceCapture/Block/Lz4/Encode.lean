import TraceCapture.Block.Lz4.Decode
import TraceCapture.Block.Lz4.Plan

set_option autoImplicit false

namespace TraceCapture.Lz4

/-- What a length adds behind its token: nothing below 15, else the excess in bytes of 255 and a
last byte below 255. -/
def putLength (out : ByteArray) (length : Nat) : ByteArray :=
  if length < 15 then out else excess out (length - 15)
where
  excess (out : ByteArray) (n : Nat) : ByteArray :=
    if n < 255 then out.push n.toUInt8 else excess (out.push 255) (n - 255)
  termination_by n

def putLiterals (out b : ByteArray) (i n extra : Nat) : ByteArray :=
  putLength (out.push (16 * min n 15 + min extra 15).toUInt8) n ++ b.extract i (i + n)

def putStep (out b : ByteArray) (i : Nat) (s : Step) : ByteArray :=
  let extra := s.length - minMatch
  let out := putLiterals out b i s.literals extra
  putLength ((out.push s.offset.toUInt8).push (s.offset / 256).toUInt8) extra

def encodePlan (b : ByteArray) (steps : Array Step) : ByteArray :=
  let (out, i) := steps.foldl
    (fun (out, i) s => (putStep out b i s, i + s.literals + s.length)) (ByteArray.empty, 0)
  putLiterals out b i (b.size - i) 0

def encode (b : ByteArray) : ByteArray :=
  encodePlan b (plan b)

def maxEncodedSize (n : Nat) : Nat := 16 + 4 + n * 110 / 100

end TraceCapture.Lz4
