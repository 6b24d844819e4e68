import TraceCapture.Capture.Session

set_option autoImplicit false

namespace TraceCapture.Capture

variable {σ : Type} [Sink σ]

/-- One turn: a step of the producer, then enough steps of the writer thread for it to finish what
it is at, to empty the ring, to serve a flush and to end. -/
def turn : List CaptureParty := .producer :: List.replicate 24 .writer

/-- The number of turns that bring a call to its end: at most four steps of the producer for every
byte that is queued, and a few for all else. -/
def turns : CaptureCall → Nat
  | .write data => 4 * data.size + 8
  | _ => 8

def runTurns (p : Profile) : Nat → Capture σ → Capture σ
  | 0, c => c
  | n + 1, c => if c.reply?.isSome then c else runTurns p n (c.run p turn)

def perform (p : Profile) (s : CaptureSession σ) (call : CaptureCall) :
    Option CaptureReply × CaptureSession σ :=
  let c := runTurns p (turns call) (start s call)
  (c.reply?, c.session)

end TraceCapture.Capture
