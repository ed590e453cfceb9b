import LdacsSdk.Config.PeerLists
import LdacsSdk.Core.BitsetQueries
import LdacsSdk.Core.BitwiseCrc
import LdacsSdk.Core.BufferSafety
import LdacsSdk.Core.HashmapRuns
import LdacsSdk.Core.HeapRepair
import LdacsSdk.Core.PqueueOrder
import LdacsSdk.Core.Rightshift
import LdacsSdk.Core.RingRefinement
import LdacsSdk.Core.Sanitize
import LdacsSdk.Core.Split
import LdacsSdk.Core.StateMachineRuns
import LdacsSdk.Json.RoundTrip
import LdacsSdk.Net.Draining
import LdacsSdk.Net.EndToEnd
import LdacsSdk.Net.Pruning
import LdacsSdk.Net.Setup
import LdacsSdk.Net.Wakeup
import LdacsSdk.Packet.BitInverse
import LdacsSdk.Packet.Corruption
import LdacsSdk.Packet.CursorRuns
import LdacsSdk.Packet.FailedParse
import LdacsSdk.Packet.FieldFrame
import LdacsSdk.Packet.LengthFields
import LdacsSdk.Packet.LockedStream
import LdacsSdk.Packet.Nesting
import LdacsSdk.Packet.Reclosing
import LdacsSdk.Packet.RoundTrip
import LdacsSdk.Pool.Limit
import LdacsSdk.Pool.OneChunk
import LdacsSdk.Queue.AqueueRuns
import LdacsSdk.Queue.MqueueRuns
import LdacsSdk.Scheduler.Deficit
import LdacsSdk.Scheduler.Termination
import LdacsSdk.Scheduler.Underloaded
import LdacsSdk.Sql.Conditions
import LdacsSdk.Timer.Cancellation
import LdacsSdk.Timer.CountedEvents
import LdacsSdk.Window.Acknowledgement
import LdacsSdk.Window.Admission
import LdacsSdk.Window.Budget
import LdacsSdk.Window.Fragmentation
import LdacsSdk.Window.FreeSlots
import LdacsSdk.Window.Order
import LdacsSdk.Window.PairOrder
