import QuorumKV.Raft.Types
import QuorumKV.Raft.Log
import QuorumKV.Raft.Step
import QuorumKV.Session.AtMostOnce
import QuorumKV.Session.Snapshot
import QuorumKV.Session.Retry
import QuorumKV.Foundation.BigEndian
import QuorumKV.Wal.Record
import QuorumKV.Wal.Segment
import QuorumKV.Wal.Written
import QuorumKV.Wal.Writer
import QuorumKV.Wal.Replay
import QuorumKV.Wal.History
import QuorumKV.Wal.Accepted
import QuorumKV.Wal.Durable
import QuorumKV.Wal.Files
import QuorumKV.Wal.Represents
import QuorumKV.Wal.Fidelity
import QuorumKV.Wal.Frames
import QuorumKV.Wal.Usable
import QuorumKV.Wal.Appending
import QuorumKV.Wal.Crash
import QuorumKV.Wal.Reach
import QuorumKV.Foundation.Terms
import QuorumKV.Foundation.Consensus
import QuorumKV.Foundation.Agreement
import QuorumKV.Runtime.Step
import QuorumKV.Runtime.Loop
import QuorumKV.Runtime.Server
import QuorumKV.Cluster.Model
import QuorumKV.Raft.View
import QuorumKV.Foundation.Local
import QuorumKV.Cluster.Invariant
import QuorumKV.Cluster.Stability
import QuorumKV.Runtime.Drain
import QuorumKV.Cluster.Progress
import QuorumKV.Cluster.Election
import QuorumKV.Cluster.Transmission
import QuorumKV.Cluster.Application
import QuorumKV.Cluster.Leadership
import QuorumKV.Cluster.Commitment
import QuorumKV.Cluster.Proposal
import QuorumKV.Cluster.Following
import QuorumKV.Cluster.Replication
import QuorumKV.Cluster.Acceptance
import QuorumKV.Cluster.Installation
import QuorumKV.Cluster.Carrying
import QuorumKV.Cluster.Serving
import QuorumKV.Cluster.Preparation
import QuorumKV.Cluster.Upkeep
import QuorumKV.Cluster.History
import QuorumKV.Cluster.Safety
import QuorumKV.Cluster.Clients
import QuorumKV.Cluster.Incarnation
import QuorumKV.Cluster.Obligations
import QuorumKV.Cluster.Rejection
import QuorumKV.Wal.Coverage
import QuorumKV.Wal.Deletion
import QuorumKV.Wal.Atomic
import QuorumKV.Raft.Standing
import QuorumKV.Cluster.Contact
import QuorumKV.Cluster.PreVote
import QuorumKV.Wal.Readers
import QuorumKV.Wal.Payload
import QuorumKV.Wal.Failed
import QuorumKV.Snapshot.File
import QuorumKV.Session.Capture
import QuorumKV.Snapshot.Transfer
import QuorumKV.Raft.Signed
import QuorumKV.Runtime.Wire
import QuorumKV.Raft.Ledger
import QuorumKV.Raft.Merge
import QuorumKV.Raft.Repair
import QuorumKV.Foundation.WorkQueue
import QuorumKV.Raft.Ordered
import QuorumKV.Runtime.LockStep
import QuorumKV.Runtime.Events
import QuorumKV.Runtime.Lifetime
import QuorumKV.Runtime.Backing
import QuorumKV.Raft.Batch
import QuorumKV.Runtime.Readers
import QuorumKV.Session.Reference
import QuorumKV.Wal.Extent
import QuorumKV.Wal.Retained
import QuorumKV.Cluster.Outcomes
import QuorumKV.Client
