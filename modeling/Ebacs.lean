import Ebacs.Avgscale.PageIdentity
import Ebacs.PageAccess.Recency
import Ebacs.PageAccess.Serializability
import Ebacs.Snapshot.ConcurrentDump
import Ebacs.Avgscale.Activity
import Ebacs.HandOff.Files
import Ebacs.HandOff.System
import Ebacs.HandOff.Safety
import Ebacs.Snapshot.Readers
import Ebacs.HandOff.LastSnapshot
import Ebacs.Lib.Lines
import Ebacs.PidFeed.Receiver
import Ebacs.PidFeed.Exactness
import Ebacs.PidFeed.Restart
import Ebacs.Lib.Greedy
import Ebacs.TelWsf.Split
import Ebacs.Lib.Rounding
import Ebacs.TelWsf.Buckets
import Ebacs.TelWsf.Controller
import Ebacs.Avgscale.ScaleFactor
import Ebacs.Avgscale.VisitOrder
import Ebacs.Lib.FloatingPoint
import Ebacs.Avgscale.Doubles
import Ebacs.Avgscale.Writes
import Ebacs.Lib.Bytes
import Ebacs.Bootstrap.Handlers
import Ebacs.Bootstrap.Lifetimes
import Ebacs.Lib.RingQueue
import Ebacs.Bootstrap.Output
import Ebacs.Bootstrap.MinDuration
import Ebacs.Tracecon.Probes
import Ebacs.Tracecon.PendingCalls
import Ebacs.Tracecon.Attribution
import Ebacs.Profile.Agreement
import Ebacs.Sockfilter.Independence
import Ebacs.Sockfilter.Printing
import Ebacs.Lib.Sorting
import Ebacs.Benchmark.Latencies
import Ebacs.Benchmark.Percentile
import Ebacs.Benchmark.Deviation
import Ebacs.Lib.Pattern
import Ebacs.Results.FioLogs
import Ebacs.Results.SilentZeros
import Ebacs.Bootstrap.Interleaving
import Ebacs.Bootstrap.Reports
import Ebacs.HandOff.Leftovers
import Ebacs.Profile.Sampling
import Ebacs.Sockfilter.Delivery
import Ebacs.Avgscale.Owners
import Ebacs.Lib.Admission
import Ebacs.Lib.Regex
import Ebacs.PidFeed.FedCounts
import Ebacs.Results.Percentiles
import Ebacs.TelWsf.Runs
import Ebacs.TelWsf.Seeds
import Ebacs.TelWsf.Skew
import Ebacs.Lib.ElementMap
import Ebacs.Tracecon.Commits
import Ebacs.Tracecon.Serialization
import Ebacs.Avgscale.TrackedPids
import Ebacs.Benchmark.FileBursts
import Ebacs.TaskIter.Listing
import Ebacs.TelWsf.MemoryStats
import Ebacs.TelWsf.Pipeline
