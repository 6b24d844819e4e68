import TraceCapture.Trace.Format

set_option autoImplicit false

namespace TraceCapture

inductive TraceEvent where
  | chunkFlushed (chunk uncompressed compressed : Nat)
  | chunkTruncated (chunk compressedLength : Nat)
  | flushFailedOnDrop (cause : TraceError)
  | fileOpened (mode : Mode)
  deriving DecidableEq, Repr

def TraceEvent.message : TraceEvent → String
  | chunkFlushed chunk uncompressed compressed =>
      s!"TRACE flushed trace chunk chunk={chunk} uncompressed={uncompressed}" ++
        s!" compressed={compressed}"
  | chunkTruncated chunk compressedLength =>
      s!"WARN truncated trace chunk, treating as end of stream chunk={chunk}" ++
        s!" compressed_len={compressedLength}"
  | flushFailedOnDrop cause => s!"WARN failed to flush trace file on drop error={cause.message}"
  | fileOpened .read => "DEBUG opened trace file mode=Read"
  | fileOpened .write => "DEBUG opened trace file mode=Write"

end TraceCapture
