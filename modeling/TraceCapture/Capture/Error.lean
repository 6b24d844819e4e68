import TraceCapture.Config
import TraceCapture.Ring

set_option autoImplicit false

namespace TraceCapture

inductive CaptureError where
  | config (cause : ConfigError)
  | file (cause : TraceError)
  | ring (cause : RingOverflow)
  | writerPanicked
  | writerStopped
  deriving DecidableEq, Repr

def CaptureError.message : CaptureError → String
  | config cause => cause.message
  | file cause => cause.message
  | ring cause => cause.message
  | writerPanicked => "trace writer thread panicked"
  | writerStopped => "trace writer thread has stopped"

structure CaptureStats where
  bytes : Nat
  chunks : Nat
  deriving DecidableEq, Repr

inductive CaptureEvent where
  | started (config : CaptureConfig)
  | finished (stats : CaptureStats)
  | failedOnShutdown (cause : CaptureError)
  deriving DecidableEq, Repr

def CaptureEvent.message : CaptureEvent → String
  | started config => s!"DEBUG starting capture config={config.describe}"
  | finished stats => s!"DEBUG capture finished bytes={stats.bytes} chunks={stats.chunks}"
  | failedOnShutdown cause =>
      s!"WARN trace writer failed during shutdown error={cause.message}"

end TraceCapture
