import CacheForge.Persistence.Accounting
import CacheForge.Persistence.Agreement
import CacheForge.Persistence.Append
import CacheForge.Persistence.Concurrent
import CacheForge.Persistence.Eviction
import CacheForge.Persistence.Expiry
import CacheForge.Persistence.OneLine
import CacheForge.Persistence.Options
import CacheForge.Persistence.Restart
import CacheForge.Persistence.Torn
import CacheForge.Protocol.Linearized
import CacheForge.Protocol.Numbers
import CacheForge.Protocol.Statistics
import CacheForge.Server.Acknowledged
import CacheForge.Server.CommandLine
import CacheForge.Server.Framing
import CacheForge.Server.InFlight
import CacheForge.Server.Interest
import CacheForge.Server.Output
import CacheForge.Server.PooledServer
import CacheForge.Server.Routing
import CacheForge.Server.Sequential
import CacheForge.Server.Settling
import CacheForge.Server.Wakeups
import CacheForge.Storage.Answers
import CacheForge.Storage.Conservation
import CacheForge.Storage.Contention
import CacheForge.Storage.Inclusion
import CacheForge.Storage.Independence
import CacheForge.Storage.Protection
import CacheForge.Storage.Reclaiming
import CacheForge.Storage.Sweeping
import CacheForge.Storage.WellFormed
import CacheForge.Storage.WriterStop
import CacheForge.Tools.Lockstep
