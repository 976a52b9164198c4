import RedisQueue.Interleave
import RedisQueue.Program
import RedisQueue.Threads
import RedisQueue.Redis
import RedisQueue.Worker
import RedisQueue.Events
import RedisQueue.Daemon
import RedisQueue.Client
import RedisQueue.HandOver
import RedisQueue.Leases
import RedisQueue.Complete
import RedisQueue.Empty
import RedisQueue.Progress
import RedisQueue.Recovery
import RedisQueue.Drain
import RedisQueue.Clock
import RedisQueue.Timed
import RedisQueue.Deferred
import RedisQueue.Linearizable
import RedisQueue.CppWorker
import RedisQueue.Hiredis
import RedisQueue.Fifo
import RedisQueue.Marker
import RedisQueue.OneWorker
import RedisQueue.Stranded
import RedisQueue.CWorkers
import RedisQueue.Combined
import RedisQueue.Keyspace
import RedisQueue.Publisher
import RedisQueue.Hands
import RedisQueue.LeaseFree
import RedisQueue.Job
import RedisQueue.CppDaemon
import RedisQueue.JobEnd
import RedisQueue.Consumers
import RedisQueue.Stream
import RedisQueue.StreamGroup
import RedisQueue.Mixed
import RedisQueue.Shared
import RedisQueue.Flow
import RedisQueue.Deployment
import RedisQueue.Lossy
import RedisQueue.Markers
import RedisQueue.Producers
import RedisQueue.Processes
