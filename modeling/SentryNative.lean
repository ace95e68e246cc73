import SentryNative.Lib.CNumber
import SentryNative.Json.WriterText
import SentryNative.Json.Tokenize
import SentryNative.Json.Reader
import SentryNative.Json.RoundTrip
import SentryNative.Envelope.Model
import SentryNative.Envelope.Framing
import SentryNative.Envelope.Build
import SentryNative.Batcher.Ring
import SentryNative.Batcher.RingInvariant
import SentryNative.Batcher.RingSteps
import SentryNative.Batcher.RingRuns
import SentryNative.Batcher.RingOrder
import SentryNative.Batcher.Task
import SentryNative.Batcher.TaskRuns
import SentryNative.Lib.Linked
import SentryNative.Worker.Queue
import SentryNative.Worker.QueueInvariant
import SentryNative.Worker.QueueRuns
import SentryNative.Retry.CacheFile
import SentryNative.Retry.Send
import SentryNative.Retry.Round
import SentryNative.Retry.Runs
import SentryNative.Retry.Poll
import SentryNative.Transport.RateLimiter
import SentryNative.Transport.Send
import SentryNative.Transport.Task
import SentryNative.Transport.Accounting
import SentryNative.Transport.SendTask
import SentryNative.Envelope.ReportRuns
import SentryNative.Pool.Pool
import SentryNative.Pool.PoolInvariant
import SentryNative.Transport.Writers
import SentryNative.Pool.PoolSteps
import SentryNative.Pool.PoolRuns
import SentryNative.Value.Msgpack
import SentryNative.Value.MpackFormat
import SentryNative.Value.ObjectMap
import SentryNative.Tracing.Dsc
import SentryNative.Lib.Counting
import SentryNative.Memory.Counts
import SentryNative.Memory.Release
import SentryNative.Memory.Reach
import SentryNative.Memory.Store
import SentryNative.Memory.Replace
import SentryNative.Memory.Detach
import SentryNative.Memory.Mutators
import SentryNative.Memory.Create
import SentryNative.Memory.Freeze
import SentryNative.Memory.Clone
import SentryNative.Memory.Merge
import SentryNative.Memory.Builders
import SentryNative.Memory.Ownership
import SentryNative.Memory.Denotes
import SentryNative.Memory.Frozen
import SentryNative.Memory.Allocation
import SentryNative.Memory.Copies
import SentryNative.Lib.Scan
import SentryNative.Lib.Calendar
import SentryNative.Daemon.Maps
import SentryNative.Daemon.Modules
import SentryNative.Daemon.Unwind
import SentryNative.Run.Filelock
import SentryNative.AppHang.Latch
import SentryNative.AppHang.LatchRuns
import SentryNative.Inproc.Handler
import SentryNative.Inproc.HandlerRuns
import SentryNative.Inproc.Nested
import SentryNative.Daemon.Handover
import SentryNative.Daemon.HandoverRuns
import SentryNative.Run.OldRuns
import SentryNative.Run.OldRunsInvariant
import SentryNative.Run.OldRunsRuns
import SentryNative.Run.OldRunsSteps
import SentryNative.Breadcrumb.RingFile
import SentryNative.Breadcrumb.RingBlocks
import SentryNative.Breadcrumb.Merge
import SentryNative.Breadcrumb.Survive
import SentryNative.Json.RawText
import SentryNative.Daemon.CrashEnvelope
import SentryNative.Daemon.CrashEnvelopeRead
import SentryNative.Lib.FileBytes
import SentryNative.Minidump.Writer
import SentryNative.Minidump.Strings
import SentryNative.Lib.Addresses
import SentryNative.Alloc.PageAllocator
import SentryNative.Scope.Observers
import SentryNative.Lib.Search
import SentryNative.Minidump.Indirect
import SentryNative.Retry.Siblings
import SentryNative.Lib.Chunks
import SentryNative.Daemon.Symbols
import SentryNative.Logs.Parameters
import SentryNative.Logs.Format
import SentryNative.Lib.Lines
import SentryNative.Os.Release
import SentryNative.Retry.Cleanup
import SentryNative.Worker.Flush
import SentryNative.Lib.Shared
import SentryNative.Batcher.Reference
import SentryNative.Batcher.ReferenceRuns
import SentryNative.Envelope.Adders
import SentryNative.Envelope.AddersRuns
import SentryNative.Envelope.AddersSpec
import SentryNative.Batcher.RingFlush
import SentryNative.Batcher.ForceFlush
import SentryNative.Elf.Notes
import SentryNative.Elf.BuildIds
import SentryNative.Retry.CacheNames
import SentryNative.Breadcrumb.Newest
import SentryNative.Lib.Interleave
import SentryNative.Transport.RateLimitHeader
import SentryNative.Memory.ListIndex
import SentryNative.Utils.Url
import SentryNative.Utils.DsnText
import SentryNative.Tracing.Context
import SentryNative.Tracing.Baggage
import SentryNative.Scope.RingBuffer
import SentryNative.Value.Merging
import SentryNative.Memory.Reading
import SentryNative.Memory.DeepMerge
import SentryNative.Memory.MergeAgain
import SentryNative.Memory.MergeShared
import SentryNative.Elf.MapLines
import SentryNative.Elf.ModuleList
import SentryNative.Lib.Rfc4648
import SentryNative.Utils.Base64
import SentryNative.Utils.Uuid
import SentryNative.Utils.Timestamp
import SentryNative.Scope.Symbolize
import SentryNative.Lib.Utf8
import SentryNative.Json.InPlace
import SentryNative.Sessions.Record
import SentryNative.Sessions.Life
import SentryNative.Sessions.LifeRuns
import SentryNative.Sessions.Accounting
import SentryNative.Sessions.EndedOnce
import SentryNative.Value.Extending
import SentryNative.Scope.Apply
import SentryNative.Scope.Breadcrumbs
import SentryNative.Tracing.Spans
import SentryNative.Tracing.SpanCounts
import SentryNative.Tracing.SpanTable
import SentryNative.Tracing.SpanCalls
import SentryNative.Tracing.SpanRuns
