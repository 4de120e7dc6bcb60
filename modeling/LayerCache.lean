import LayerCache.StoredValue.RoundTrip
import LayerCache.StoredValue.Deadlines
import LayerCache.Json.Parse
import LayerCache.Invalidation.BusSubscriptions
import LayerCache.Invalidation.TwoSided
import LayerCache.Invalidation.IndexHistory
import LayerCache.Transition.Run
import LayerCache.Maintenance.Fences
import LayerCache.Maintenance.QueueHistory
import LayerCache.Maintenance.SerializedWrites
import LayerCache.Resilience.HalfOpen
import LayerCache.Resilience.FetchRateLimiter
import LayerCache.Resilience.RateWindow
import LayerCache.Resilience.GuardedFetch
import LayerCache.SingleFlight.StampedeGuard
import LayerCache.SingleFlight.LockLease
import LayerCache.SingleFlight.OncePerWindow
import LayerCache.SingleFlight.AbortedRefresh
import LayerCache.Store.Fencing
import LayerCache.Store.FailedWrites
import LayerCache.Stack.DeletedReads
import LayerCache.Stack.LastWrite
import LayerCache.Stack.NoStaleReads
import LayerCache.Stack.SlidingTtl
import LayerCache.Stack.EntryTimeout
import LayerCache.Batch.BatchedRead
import LayerCache.Expiry.LostUpdate
import LayerCache.Keys.Injective
import LayerCache.Layers.Eviction
import LayerCache.Layers.RecencyOrder
import LayerCache.Layers.StoredEntries
import LayerCache.Layers.Migration
import LayerCache.Layers.DiskReads
import LayerCache.Layers.RedisPrefix
import LayerCache.Stack.TimedOutFetches
import LayerCache.Snapshot.Restore
import LayerCache.Matching.PatternMatcher
import LayerCache.Namespace.Isolation
import LayerCache.Namespace.TagInvalidation
import LayerCache.Invalidation.PatternLookup
import LayerCache.Invalidation.BulkInvalidation
import LayerCache.Invalidation.GenerationCleanup
import LayerCache.Resilience.DegradedReads
import LayerCache.Resilience.DegradedSearch
import LayerCache.Resilience.DegradedAnswers
import LayerCache.Resilience.Degradation
import LayerCache.Layers.CompressionFraming
import LayerCache.Layers.AcceptedPayloads
import LayerCache.Resilience.BreakerReference
import LayerCache.Batch.WarmUp
import LayerCache.Expiry.TtlResolver
import LayerCache.Expiry.GlobalDefaults
import LayerCache.Layered.Basic
import LayerCache.Layered.Read
import LayerCache.Layered.Existence
import LayerCache.Layered.TtlCap
import LayerCache.Invalidation.LateMessages
import LayerCache.Stack.OneFetch
import LayerCache.Stack.TimeoutIsolation
import LayerCache.Invalidation.SanitizedValues
import LayerCache.Layers.BoundedReads
import LayerCache.Maintenance.EpochTable
import LayerCache.Invalidation.TagSets
import LayerCache.Snapshot.LiveExport
import LayerCache.SingleFlight.WaiterDeadline
import LayerCache.Namespace.Metrics
import LayerCache.Stack.HitAccounting
import LayerCache.Invalidation.CliTag
import LayerCache.Invalidation.LegacyMigration
import LayerCache.Generation.Store
import LayerCache.Namespace.TagSelection
import LayerCache.Generation.Family
import LayerCache.Collections.StableSort
import LayerCache.Integrations.HttpCacheKeys
import LayerCache.Integrations.HttpCache
import LayerCache.Layers.DiskFiles
import LayerCache.Layers.DiskEviction
import LayerCache.FileSystem.Path
import LayerCache.FileSystem.Tree
import LayerCache.Snapshot.FilePath
import LayerCache.Snapshot.FileRoundTrip
