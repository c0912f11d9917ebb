import BenchLx.Common.BigEndian
import BenchLx.Common.Decimal
import BenchLx.Common.SortedMap
import BenchLx.Copy.ShortWrites
import BenchLx.Copy.Write
import BenchLx.Exec.ForkTree
import BenchLx.LevelDb.Benchmark
import BenchLx.Memcpy.Pages
import BenchLx.Memcpy.ForwardCopy
import BenchLx.Netlat.Errors
import BenchLx.Netlat.LateAnswers
import BenchLx.Pingpong.RoundTrips
import BenchLx.Pingpong.SharedQueue
import BenchLx.Stats.Rounding
import BenchLx.Tools.AnalyzeSyscalls
import BenchLx.Tools.LoadedRegions
import BenchLx.Tools.Results
import BenchLx.Tools.TickAccounting
import BenchLx.Ycsb.WireFormat
import BenchLx.Ycsb.ScanOrder
import BenchLx.Ycsb.ReadAll
import BenchLx.Ycsb.TcpBounds
import BenchLx.Ycsb.TcpErrors
import BenchLx.Ycsb.TcpClose
import BenchLx.Ycsb.UdpLoad
import BenchLx.Ycsb.UdpSequence
import BenchLx.Ycsb.UdpRequests
import BenchLx.Ycsb.ExecutedPackages
import BenchLx.Ycsb.Timing
import BenchLx.Ycsb.Accounting
import BenchLx.Ycsb.Report
import BenchLx.Ycsb.Records
import BenchLx.Ycsb.Restarts
import BenchLx.Ycsb.RunScans
import BenchLx.Ycsb.StoreBounds
import BenchLx.Ycsb.Streams
