import HarborRouter.Lib.Machine
import HarborRouter.Lib.Meter
import HarborRouter.Lib.Maps
import HarborRouter.Lib.SharedStore
import HarborRouter.Lib.Watch
import HarborRouter.Lib.Expiring
import HarborRouter.Lib.Ranking
import HarborRouter.Lib.Text
import HarborRouter.Lib.Panic
import HarborRouter.Lib.Binary64
import HarborRouter.Lib.MultiMap
import HarborRouter.Lib.Json
import HarborRouter.Lib.Exposition
import HarborRouter.Lib.Stack
import HarborRouter.Lib.UrlPath
import HarborRouter.Cache.Backend
import HarborRouter.Cache.Redis
import HarborRouter.Cache.Tenants
import HarborRouter.CircuitBreaker
import HarborRouter.CircuitBreaker.History
import HarborRouter.CircuitBreaker.Atomic
import HarborRouter.CircuitBreaker.Recovery
import HarborRouter.CircuitBreaker.Metrics
import HarborRouter.Config
import HarborRouter.Config.Grammar
import HarborRouter.Config.Load
import HarborRouter.Proxy.Path
import HarborRouter.Proxy.Grammar
import HarborRouter.Resolver.Url
import HarborRouter.Resolver.ProjectUrl
import HarborRouter.Resolver.CacheKey
import HarborRouter.Resolver.CacheValue
import HarborRouter.Resolver.ContentType
import HarborRouter.Resolver.MediaRange
import HarborRouter.Resolver.Fetch
import HarborRouter.Resolver.Retry
import HarborRouter.Resolver.SendErrors
import HarborRouter.Resolver.ParallelLookup
import HarborRouter.Resolver.ProbeHistory
import HarborRouter.Resolver.Singleflight
import HarborRouter.Resolver.Flights
import HarborRouter.Resolver.Wakeup
import HarborRouter.Resolver.Deadlines
import HarborRouter.Resolver.Outcomes
import HarborRouter.Resolver.Agreement
import HarborRouter.Resolver.Manifest
import HarborRouter.Resolver.Selection
import HarborRouter.Resolver.Provenance
import HarborRouter.Resolver.Progress
import HarborRouter.Resolver.Liveness
import HarborRouter.Resolver.NegativeCache
import HarborRouter.Resolver.BlobRouting
import HarborRouter.Resolver.Negotiation
import HarborRouter.Resolver.CacheOrder
import HarborRouter.Resolver.OneLookup
import HarborRouter.Resolver.OneCall
import HarborRouter.Resolver.OwnManifest
import HarborRouter.Resolver.Tags
import HarborRouter.Resolver.WrongEntry
import HarborRouter.Proxy.Blob
import HarborRouter.Proxy.Headers
import HarborRouter.Proxy.Logging
import HarborRouter.Proxy.Requests
import HarborRouter.Proxy.Gauges
import HarborRouter.Metrics.Series
import HarborRouter.Metrics.Popularity
import HarborRouter.Metrics.TopImages
import HarborRouter.Metrics.Render
import HarborRouter.Metrics.Interleaved
import HarborRouter.Resolver.Warmup
import HarborRouter.Resolver.WarmStart
import HarborRouter.Resolver.Freshness
import HarborRouter.Discovery
import HarborRouter.Discovery.Pages
import HarborRouter.Discovery.Readiness
import HarborRouter.Fleet.Pod
import HarborRouter.Fleet.Alone
import HarborRouter.Fleet.ControlEntries
import HarborRouter.Proxy.Handler
import HarborRouter.Cache.Agreement
import HarborRouter.Cache.Genuine
import HarborRouter.Resolver.Backed
import HarborRouter.Resolver.Amplification
import HarborRouter.Resolver.Counters
