import TraceCapture.Block.Stored
import TraceCapture.Capture.Schedule
import TraceCapture.Crash.Registry
import TraceCapture.Memory.Query
import TraceCapture.Proofs.AnyFile
import TraceCapture.Proofs.Block.Lz4.Lawful
import TraceCapture.Proofs.Block.Lz4.Lengths
import TraceCapture.Proofs.Block.Lz4.Plan
import TraceCapture.Proofs.Block.Lz4.RoundTrip
import TraceCapture.Proofs.Bookmarks
import TraceCapture.Proofs.Capture.Accounting
import TraceCapture.Proofs.Capture.Answers
import TraceCapture.Proofs.Capture.Barrier
import TraceCapture.Proofs.Capture.Coordination
import TraceCapture.Proofs.Capture.FailureReports
import TraceCapture.Proofs.Capture.FinishedTrace
import TraceCapture.Proofs.Capture.Flushes
import TraceCapture.Proofs.Capture.History
import TraceCapture.Proofs.Capture.Moves
import TraceCapture.Proofs.Capture.RingSafety
import TraceCapture.Proofs.Capture.WithoutThread
import TraceCapture.Proofs.Configuration
import TraceCapture.Proofs.Corruption
import TraceCapture.Proofs.Crash.Effects
import TraceCapture.Proofs.Crash.Forwarding
import TraceCapture.Proofs.Crash.LogLines
import TraceCapture.Proofs.Crash.Modes
import TraceCapture.Proofs.Crash.Originals
import TraceCapture.Proofs.Crash.Reentrancy
import TraceCapture.Proofs.Crash.Rest
import TraceCapture.Proofs.Crash.Saved
import TraceCapture.Proofs.CutTrace
import TraceCapture.Proofs.FailedWrites
import TraceCapture.Proofs.FailingSink
import TraceCapture.Proofs.Memory.Attempts
import TraceCapture.Proofs.Memory.BrokenLines
import TraceCapture.Proofs.Memory.Enclosing
import TraceCapture.Proofs.Memory.Grammar
import TraceCapture.Proofs.Memory.HeapSegment
import TraceCapture.Proofs.Memory.Listing
import TraceCapture.Proofs.Memory.Partition
import TraceCapture.Proofs.Memory.Pinning
import TraceCapture.Proofs.Memory.Scanning
import TraceCapture.Proofs.Memory.StableStretch
import TraceCapture.Proofs.OffsetOrder
import TraceCapture.Proofs.Reader.Alike
import TraceCapture.Proofs.Reader.Bounds
import TraceCapture.Proofs.Reader.Calls
import TraceCapture.Proofs.Reader.FailingReads
import TraceCapture.Proofs.Reader.Load
import TraceCapture.Proofs.Reader.Progress
import TraceCapture.Proofs.Reader.Reference
import TraceCapture.Proofs.Reader.RejectedSeeks
import TraceCapture.Proofs.Reader.Rejection
import TraceCapture.Proofs.Reader.Seeking
import TraceCapture.Proofs.Reader.Skipping
import TraceCapture.Proofs.Reader.Stream
import TraceCapture.Proofs.RefusedChunks
import TraceCapture.Proofs.RejectedOpens
import TraceCapture.Proofs.Ring.AnyUse
import TraceCapture.Proofs.Ring.Fifo
import TraceCapture.Proofs.Ring.Guards
import TraceCapture.Proofs.Ring.PhysicalEnd
import TraceCapture.Proofs.RoundTrip
import TraceCapture.Proofs.SkipAnswers
import TraceCapture.Proofs.Stream.FaultFree
import TraceCapture.Proofs.Stream.LawfulSource
import TraceCapture.Proofs.Stream.Lookahead
import TraceCapture.Proofs.Stream.Memory
import TraceCapture.Proofs.Stream.ReadsAlike
import TraceCapture.Proofs.Stream.WriteRounds
import TraceCapture.Proofs.Trace.Cut
import TraceCapture.Proofs.Trace.Decoding
import TraceCapture.Proofs.Trace.Grammar
import TraceCapture.Proofs.Trace.Places
import TraceCapture.Proofs.Writer.Append
import TraceCapture.Proofs.Writer.Chunking
import TraceCapture.Proofs.Writer.Extension
import TraceCapture.Proofs.Writer.Failures
import TraceCapture.Proofs.Writer.File
import TraceCapture.Proofs.Writer.Mirrors
import TraceCapture.Proofs.Writer.Refusals
import TraceCapture.Proofs.Writer.Steps
import TraceCapture.Stream.Memory
import TraceCapture.Trace.Entry
import TraceCapture.Trace.File
