import RedKnot.Attention.CachePolicy
import RedKnot.Attention.Driver.FlatAttention
import RedKnot.Attention.Driver.LinearSegmented
import RedKnot.Attention.Driver.MicroBatching
import RedKnot.Attention.HeadClass.SavedConfig
import RedKnot.Attention.HeadClass.TensorParallel
import RedKnot.Attention.HeadClass.Transfer
import RedKnot.Attention.HeadClass.TrimReads
import RedKnot.Attention.MergeLse
import RedKnot.Attention.OfflineCache.Fetch
import RedKnot.Attention.OfflineCache.Recency
import RedKnot.Attention.OfflineCache.SegmentId
import RedKnot.Attention.Rope
import RedKnot.Attention.SegPaged.Fused
import RedKnot.Attention.SegPaged.StoreHistory
import RedKnot.Attention.TopMass
import RedKnot.Eplb.Delivery
import RedKnot.Gateway.CircuitBreaker
import RedKnot.Gateway.ConcurrencyLimit
import RedKnot.Gateway.TenantTreeRefinement
import RedKnot.Gateway.TextTreeRace
import RedKnot.Gateway.HashRing
import RedKnot.Gateway.TokenBucket
import RedKnot.Managers.BatchItems
import RedKnot.Managers.SwaEviction
import RedKnot.MemCache.Allocator.Hybrid
import RedKnot.MemCache.Allocator.Launch
import RedKnot.MemCache.Radix.Allocation
import RedKnot.Router.ActiveLoad
import RedKnot.Router.BlockHashes
import RedKnot.Router.BreakerTraffic
import RedKnot.Router.Resync
import RedKnot.Router.KvIndexCalls
import RedKnot.Speculative.GreedyVerify
