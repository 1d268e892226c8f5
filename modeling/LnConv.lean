import LnConv.Lib.Join
import LnConv.Lib.Run
import LnConv.Lib.Push
import LnConv.Lib.Ledger
import LnConv.Lib.Interleave
import LnConv.Lib.SwapRemove
import LnConv.Lib.Loop
import LnConv.Lib.EdgeList
import LnConv.Lib.Deadline
import LnConv.Lib.Flood
import LnConv.Lib.Chunks
import LnConv.Lib.SortedMap
import LnConv.Lib.Labels
import LnConv.Lib.Heap
import LnConv.Message
import LnConv.State
import LnConv.Diff
import LnConv.DiffSpec
import LnConv.Reservoir
import LnConv.Sampling
import LnConv.Metrics
import LnConv.Absorb
import LnConv.Node.Base
import LnConv.Node.Flooding
import LnConv.Node.Pending
import LnConv.Node.Cln
import LnConv.Node.Lnd
import LnConv.Node.Sketch
import LnConv.Node.Model
import LnConv.Net
import LnConv.Rejected
import LnConv.Node.Run
import LnConv.Staggered
import LnConv.RecvJoin
import LnConv.Stamps
import LnConv.Progress
import LnConv.FloodTiming
import LnConv.NoLoss
import LnConv.Mixed
import LnConv.Deadlines
import LnConv.Exchange
import LnConv.Bandwidth
import LnConv.Copies
import LnConv.Flush
import LnConv.Traffic
import LnConv.Clock
import LnConv.Topology.Graph
import LnConv.Channels
import LnConv.Topology.LnData
import LnConv.Aggregator
import LnConv.Tables
import LnConv.Rounds
import LnConv.Overflows
import LnConv.Tracker
import LnConv.Finalised
import LnConv.KeyRuns
import LnConv.Percentiles
import LnConv.DeliveryOrder
import LnConv.FloodReported
import LnConv.Events.Capacity
import LnConv.Events.Reshape
import LnConv.Events.Flags
import LnConv.Events.Schedule
import LnConv.Topology.Synthetic
import LnConv.Topology.Metrics
import LnConv.Topology.PeerSpec
import LnConv.Topology.PeerFuel
import LnConv.PeerGraph
import LnConv.Topology.PeerRun
import LnConv.PeerDegrees
import LnConv.Ownership
import LnConv.Identity
import LnConv.Provenance
import LnConv.Mix
import LnConv.Netsim.Network
import LnConv.Netsim.Counters
import LnConv.Netsim.EventQueue
import LnConv.Lnsim.Node
import LnConv.Lnsim.Sim
import LnConv.Lnsim.Spec
import LnConv.Lnsim.Stagger
import LnConv.Lnsim.Receive
import LnConv.Lnsim.Update
import LnConv.Lnsim.Known
import LnConv.Lnsim.Coverage
import LnConv.Lnsim.Inventory
import LnConv.Lnsim.SpanningTree
import LnConv.Lnsim.TreeOnly
import LnConv.Lnsim.Redundancy
import LnConv.Lnsim.Reconciled
import LnConv.Lnsim.Departures
import LnConv.Lnsim.TickBytes
import LnConv.Lnsim.Grid
import LnConv.Lnsim.Ticks
import LnConv.Lnsim.Start
import LnConv.Lnsim.Ends
import LnConv.Payments.Graph
import LnConv.Payments.FindPath
import LnConv.Payments.Route
import LnConv.Payments.Soundness
import LnConv.Payments.Check
import LnConv.Payments.Cheapest
import LnConv.Payments.Send
