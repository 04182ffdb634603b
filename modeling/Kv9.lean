import Kv9.Common.LogBudget.Balance
import Kv9.Engine.SstTable
import Kv9.Engine.Restore
import Kv9.Engine.Spares
import Kv9.Engine.Wal.Recovery
import Kv9.Engine.Wal.Sealed
import Kv9.Raft.StateMachine.Ownership
import Kv9.Raft.Lease.Exclusion
import Kv9.Server.Following
import Kv9.Raft.StateMachine.LegacyGuard
import Kv9.Raft.StateMachine.Manifest
import Kv9.Raft.Driver.Barriers
import Kv9.Raft.Storage.Effective
import Kv9.Raft.Storage.Durable
import Kv9.Engine.Cycle
import Kv9.Engine.Leftovers
import Kv9.Server.Subscriber
import Kv9.Server.VoterReplacement
import Kv9.Raft.LogBytes
import Kv9.Meta.Scope.Fixpoint
