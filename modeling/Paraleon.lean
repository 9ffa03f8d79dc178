import Paraleon.Core.Schedulers
import Paraleon.Core.Simulator
import Paraleon.Core.SimulatorRuns
import Paraleon.Library.Bfs
import Paraleon.Library.BitFields
import Paraleon.Library.Bytes
import Paraleon.Library.Enumeration
import Paraleon.Library.Heap
import Paraleon.Library.Histogram
import Paraleon.Library.Lanes
import Paraleon.Library.Memory
import Paraleon.Library.Mirror
import Paraleon.Library.Mixing
import Paraleon.Library.Numerals
import Paraleon.Library.OrderedDict
import Paraleon.Library.Polyline
import Paraleon.Library.PriorityQueue
import Paraleon.Library.PyText
import Paraleon.Library.RoundRobin
import Paraleon.Library.Runs
import Paraleon.Library.Simulation
import Paraleon.Library.SortedMap
import Paraleon.Library.Streams
import Paraleon.Library.Tiling
import Paraleon.Library.Weights
import Paraleon.Library.Words
import Paraleon.Network
import Paraleon.Rdma.AckRates
import Paraleon.Rdma.Acks
import Paraleon.Rdma.CnpScheduler
import Paraleon.Rdma.Compaction
import Paraleon.Rdma.Completion
import Paraleon.Rdma.Dcqcn
import Paraleon.Rdma.DcqcnPacing
import Paraleon.Rdma.DcqcnRates
import Paraleon.Rdma.DcqcnTimers
import Paraleon.Rdma.Demux
import Paraleon.Rdma.EgressQueue
import Paraleon.Rdma.GoBackN
import Paraleon.Rdma.Hpcc
import Paraleon.Rdma.HpccRates
import Paraleon.Rdma.Hw
import Paraleon.Rdma.HyperIncrease
import Paraleon.Rdma.Keys
import Paraleon.Rdma.Nic
import Paraleon.Rdma.NicFairness
import Paraleon.Rdma.QpGroups
import Paraleon.Rdma.QueuePair
import Paraleon.Rdma.Segmentation
import Paraleon.Rdma.Wakeup
import Paraleon.Rdma.Window
import Paraleon.Routing
import Paraleon.Routing.Metrics
import Paraleon.Sketch.Accuracy
import Paraleon.Sketch.BetaGenerator
import Paraleon.Sketch.ElasticSketch
import Paraleon.Sketch.Emfsd
import Paraleon.Sketch.FlowId
import Paraleon.Sketch.Marking
import Paraleon.Sketch.Report
import Paraleon.Sketch.Simd
import Paraleon.Sketch.Statistics
import Paraleon.Switch.Admission
import Paraleon.Switch.Agreement
import Paraleon.Switch.Config
import Paraleon.Switch.Dequeue
import Paraleon.Switch.Ecmp
import Paraleon.Switch.EgressQueue
import Paraleon.Switch.Hysteresis
import Paraleon.Switch.Mmu
import Paraleon.Switch.MmuAccounting
import Paraleon.Switch.MmuPools
import Paraleon.Switch.Node
import Paraleon.Switch.Pause
import Paraleon.Switch.PfcLink
import Paraleon.Switch.Throughput
import Paraleon.Switch.Transmitter
import Paraleon.Traffic.CustomRand
import Paraleon.Traffic.DynamicFlows
import Paraleon.Traffic.FlowFile
import Paraleon.Traffic.OnoffRounds
import Paraleon.Traffic.Schedule
import Paraleon.Traffic.StandaloneFct
import Paraleon.Tuning.Annealing
import Paraleon.Tuning.Candidates
import Paraleon.Tuning.Ecn
import Paraleon.Tuning.FlowTable
import Paraleon.Tuning.HostReport
import Paraleon.Tuning.HostWr
import Paraleon.Tuning.LogItems
import Paraleon.Tuning.LogLines
import Paraleon.Tuning.LogRoundTrip
import Paraleon.Tuning.Monitor
import Paraleon.Tuning.Parameters
import Paraleon.Tuning.PartialRead
import Paraleon.Tuning.Pfc
import Paraleon.Tuning.PortKeys
import Paraleon.Tuning.Transfer
import Paraleon.Tuning.TunerLog
import Paraleon.Tuning.UploadRatio
import Paraleon.Utils.BEgressQueue
import Paraleon.Utils.Conservation
import Paraleon.Utils.DropTailQueue
import Paraleon.Utils.Fairness
import Paraleon.Utils.Telemetry
import Paraleon.Wire.CustomHeader
import Paraleon.Wire.Headers
import Paraleon.Wire.InPlace
import Paraleon.Wire.IntHop
import Paraleon.Wire.IntMemory
import Paraleon.Wire.UnionHeader
