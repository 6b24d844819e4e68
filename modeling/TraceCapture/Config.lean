import TraceCapture.Text.Blank
import TraceCapture.Text.Decimal
import TraceCapture.Text.Quoted
import TraceCapture.Trace.Format

set_option autoImplicit false

namespace TraceCapture

def ringCapacityVariable : String := "APICAP_RING_CAPACITY"

def chunkSizeVariable : String := "APICAP_CHUNK_SIZE"

def defaultRingCapacity : Nat := 4 * 1024 * 1024

/-- A producer keeps one byte of slack, so a ring of one byte could take nothing. -/
def minRingCapacity : Nat := 2

inductive ConfigError where
  | invalidNumber (name value : String)
  | ringCapacity (capacity : Nat)
  | file (cause : TraceError)
  deriving DecidableEq, Repr

def ConfigError.message : ConfigError → String
  | invalidNumber name value =>
      s!"{name} must be a decimal byte count, got {Text.quote value}"
  | ringCapacity capacity =>
      s!"ring capacity must be at least {minRingCapacity} bytes, got {capacity}"
  | file cause => cause.message

structure CaptureConfig where
  ringCapacity : Nat
  chunkSize : Nat
  deriving DecidableEq, Repr

namespace CaptureConfig

def default : CaptureConfig := ⟨defaultRingCapacity, defaultChunkSize⟩

def validate (c : CaptureConfig) : Except ConfigError ChunkSize :=
  if c.ringCapacity < minRingCapacity then .error (.ringCapacity c.ringCapacity)
  else (ChunkSize.ofNat? c.chunkSize).mapError .file

def parseSize (name value : String) : Except ConfigError Nat :=
  match Text.size? (Text.trim value.toList) with
  | some n => .ok n
  | none => .error (.invalidNumber name value)

def sizeOf (lookup : String → Option String) (name : String) (default : Nat) :
    Except ConfigError Nat :=
  match lookup name with
  | none => .ok default
  | some value => parseSize name value

def ofLookup (lookup : String → Option String) : Except ConfigError CaptureConfig := do
  let ringCapacity ← sizeOf lookup ringCapacityVariable defaultRingCapacity
  let chunkSize ← sizeOf lookup chunkSizeVariable defaultChunkSize
  let config : CaptureConfig := ⟨ringCapacity, chunkSize⟩
  let _ ← config.validate
  return config

/-- Like `ofLookup`, from variables that hold bytes. A value that is not UTF-8 counts as not set. -/
def ofEnvironment (lookup : String → Option ByteArray) : Except ConfigError CaptureConfig :=
  ofLookup fun name => (lookup name).bind String.fromUTF8?

def describe (c : CaptureConfig) : String :=
  s!"CaptureConfig \x7b ring_capacity: {c.ringCapacity}, " ++
    s!"file: FileOptions \x7b chunk_size: {c.chunkSize} \x7d \x7d"

end CaptureConfig

end TraceCapture
