import Pegasus.Replica.MutationRing
import Pegasus.Replica.PrepareRuns
import Pegasus.Replica.QueueRuns
import Pegasus.Replica.LruRows
import Pegasus.Replica.Replay
import Pegasus.Replica.BulkLoadRounds
import Pegasus.Server.DirectWrites
import Pegasus.Server.ServerApp
import Pegasus.Server.Conflicts
import Pegasus.Server.ApplyTimes
import Pegasus.Server.ValueSchema
import Pegasus.Server.CompactionFilter
import Pegasus.Duplication.KeyOrder
import Pegasus.Duplication.BufferProgress
import Pegasus.Duplication.Handover
import Pegasus.Meta.PartitionGuardian
import Pegasus.Meta.BulkLoadService
import Pegasus.Meta.NodeStates
import Pegasus.Meta.SingleFlight
import Pegasus.Meta.DuplicationStatus
import Pegasus.Meta.DuplicationProgress
import Pegasus.Rpc.ClientMatcher
import Pegasus.Utils.CrcGenerator
import Pegasus.Utils.NthElement
import Pegasus.Utils.SplitArgs
import Pegasus.Rpc.HostileStreams
import Pegasus.Redis.Requests
import Pegasus.Redis.Replies
import Pegasus.Ranger.PolicyRounds
import Pegasus.FailureDetector.Network
import Pegasus.Log.Recovery
import Pegasus.Log.ResetFrom
import Pegasus.Scan.KeyRange
import Pegasus.Tasking.Cancellation
