import Bess.Graph.Gates
import Bess.Graph.Destroy
import Bess.Lib.AssocMap
import Bess.Lib.Heap
import Bess.Utils.PriorityQueue
import Bess.Cuckoo.Table
import Bess.Cuckoo.Rep
import Bess.Cuckoo.Contents
import Bess.Cuckoo.Refine
import Bess.Cuckoo.Invariant
import Bess.Cuckoo.Space
import Bess.Cuckoo.Room
import Bess.Cuckoo.Spread
import Bess.Cuckoo.TwoKeys
import Bess.Cuckoo.Machine
import Bess.Cuckoo.Overflow
import Bess.Lib.Dfs
import Bess.Graph.TaskGraph
import Bess.Graph.Overload
import Bess.Graph.Placement
import Bess.Metadata.Scope
import Bess.Metadata.Assign
import Bess.Metadata.Walk
import Bess.Metadata.Components
import Bess.Metadata.Offsets
import Bess.Sched.Tc
import Bess.Sched.Forest
import Bess.Sched.Tidy
import Bess.Lib.Turns
import Bess.Sched.RoundRobin
import Bess.Sched.Throttle
import Bess.Lib.Stride
import Bess.Sched.Fair
import Bess.Sched.Remain
import Bess.Control.World
import Bess.Control.Create
import Bess.Control.Leak
import Bess.Control.ActiveWorkers
import Bess.Control.Commands
import Bess.Lib.OnesComplement
import Bess.Lib.ByteMem
import Bess.Utils.Checksum
import Bess.Utils.CalculateChecksum
import Bess.Utils.Headers
import Bess.Translate.Packet
import Bess.Translate.Verify
import Bess.Lib.Pairing
import Bess.Cuckoo.Lookup
import Bess.Translate.Table
import Bess.Translate.Mappings
import Bess.Translate.Ports
import Bess.Lib.Slots
import Bess.L2.Table
import Bess.L2.Lookup
import Bess.L2.Refine
import Bess.L2.Agree
import Bess.L2.Populate
import Bess.Lib.Packing
import Bess.Match.Key
import Bess.Match.Exact
import Bess.Match.Wildcard
import Bess.Match.WildcardRules
import Bess.Match.WildcardGates
import Bess.Match.KeyBounds
import Bess.Match.Batch
import Bess.Match.ExactMatch
import Bess.Match.ExactMatchConfig
import Bess.Match.WildcardConfig
import Bess.Match.WildcardDelete
import Bess.Match.ExactMatchInit
import Bess.Match.ValueInt
import Bess.Lib.Intervals
import Bess.Utils.TcpFlowReconstruct
import Bess.Utils.TcpFlowRanges
import Bess.Utils.Trie
import Bess.Utils.TrieDump
import Bess.Url.Config
import Bess.Utils.Codel
import Bess.Utils.CodelDelay
import Bess.Modules.FlowGen
import Bess.Modules.FlowGenUpdate
import Bess.Modules.FlowGenPacket
import Bess.Lib.Ring
import Bess.Modules.Drr
import Bess.Modules.DrrFlows
import Bess.Modules.DrrTurns
import Bess.Modules.DrrRun
import Bess.Modules.DrrLinks
import Bess.Modules.Queue
import Bess.Modules.Command
import Bess.Lib.LongestPrefix
import Bess.Modules.IpLookup
import Bess.Translate.StaticNat
import Bess.Utils.Ip
import Bess.Translate.StaticNatArg
import Bess.Utils.Histogram
import Bess.Utils.Copy
import Bess.Utils.Bits
import Bess.Modules.Measure
import Bess.Modules.GateList
import Bess.Modules.RoundRobin
import Bess.Modules.Packet
import Bess.Modules.Replicate
import Bess.Modules.HashLb
import Bess.Modules.HashLbRun
import Bess.Lib.BigEndian
import Bess.Modules.Split
import Bess.Modules.Update
import Bess.Match.GenericEncap
import Bess.Modules.VlanTag
import Bess.Modules.Vxlan
import Bess.Utils.MaskBytes
import Bess.Cuckoo.Iterator
import Bess.Modules.PortOut
import Bess.Drivers.VPortBar
import Bess.Drivers.VPortSend
import Bess.Modules.Rewrite
import Bess.GateHooks.Pcapng
