import DecQueue.AccountCodec
import DecQueue.AccountSpace
import DecQueue.Address
import DecQueue.AuditRecord
import DecQueue.Authority
import DecQueue.Backoff
import DecQueue.ByteStore
import DecQueue.Cancellation
import DecQueue.Client
import DecQueue.Commute
import DecQueue.Compressed
import DecQueue.CompressedCodec
import DecQueue.CompressedIsolation
import DecQueue.CompressedLifecycle
import DecQueue.Conservation
import DecQueue.DecqueueCore
import DecQueue.Discovery
import DecQueue.DispatchOrder
import DecQueue.EnqueueGuards
import DecQueue.EventLog
import DecQueue.FeeBid
import DecQueue.FuzzOracles
import DecQueue.Handlers
import DecQueue.HeadCoverage
import DecQueue.Invariants
import DecQueue.Isolation
import DecQueue.JobLife
import DecQueue.JsonCanonical
import DecQueue.JsonParse
import DecQueue.JsonText
import DecQueue.Kit.Borsh
import DecQueue.Kit.BorshDecode
import DecQueue.Kit.ComparisonSort
import DecQueue.Kit.Fallible
import DecQueue.Kit.Independence
import DecQueue.Kit.JobPool
import DecQueue.Kit.Lists
import DecQueue.Kit.Loop
import DecQueue.Kit.Traces
import DecQueue.Kit.Transition
import DecQueue.LateReports
import DecQueue.Lifecycle
import DecQueue.LiveFeed
import DecQueue.Lock
import DecQueue.Membership
import DecQueue.Numbers
import DecQueue.Outcomes
import DecQueue.PageChoice
import DecQueue.PageList
import DecQueue.Payload
import DecQueue.PoolRefinement
import DecQueue.Producers
import DecQueue.Program
import DecQueue.Reachability
import DecQueue.Records
import DecQueue.Refinement
import DecQueue.ReportLength
import DecQueue.ReportTraffic
import DecQueue.RetryBudget
import DecQueue.RetryRoom
import DecQueue.Schedule
import DecQueue.SeedBytes
import DecQueue.SkippedJobs
import DecQueue.Snapshot
import DecQueue.State
import DecQueue.Utf16
import DecQueue.View
import DecQueue.WorkerPass
import DecQueue.Workers
