import Mathlib.Data.Finset.Card
import Mathlib.Data.List.Sort

/-!
# Events, actions, and state of the consensus core

The vocabulary of `internal/raft/raft.go`.  Terms, log positions, and request
identifiers are natural numbers: the core compares them, increments them, and
subtracts only below an established bound.  The session sequence keeps its
64-bit type, because the session machine depends on how it wraps.

Go maps that are only looked up with their zero value as default are total
functions; maps whose size matters are finite sets; `pendingReads`, which the
source always walks in identifier order, is a list sorted by identifier.
-/

namespace QuorumKV.Raft

abbrev Bytes := List UInt8

/-- A Node Identity: a Go string, hence bytes.  The empty one stands for "none". -/
abbrev NodeID := Bytes

instance : LawfulBEq NodeID := inferInstance

inductive Role where
  | follower
  | preCandidate
  | candidate
  | leader
  deriving DecidableEq, Repr

inductive EntryType where
  | noOp
  | openSession
  | closeSession
  | set
  | delete
  deriving DecidableEq, Repr

/-- The replicated identity of one Client Session: exactly sixteen bytes. -/
structure SessionID where
  bytes : Bytes
  length_eq : bytes.length = 16
  deriving DecidableEq, Repr

/-- The zero value of the source's `[16]byte`, carried by a no-op. -/
def SessionID.zero : SessionID := ⟨List.replicate 16 0, rfl⟩

abbrev ProposalID := Nat

abbrev ReadID := Nat

structure LogEntry where
  index : Nat
  term : Nat
  type : EntryType
  sessionID : SessionID := SessionID.zero
  sequence : UInt64 := 0
  key : Bytes := []
  value : Bytes := []
  deriving DecidableEq, Repr

structure PreVoteRequest where
  sender : NodeID
  term : Nat
  lastLogIndex : Nat
  lastLogTerm : Nat
  deriving DecidableEq, Repr

structure PreVoteResponse where
  sender : NodeID
  term : Nat
  currentTerm : Nat
  granted : Bool
  deriving DecidableEq, Repr

structure VoteRequest where
  sender : NodeID
  term : Nat
  lastLogIndex : Nat
  lastLogTerm : Nat
  deriving DecidableEq, Repr

structure VoteResponse where
  sender : NodeID
  term : Nat
  granted : Bool
  deriving DecidableEq, Repr

structure AppendEntries where
  sender : NodeID
  term : Nat
  requestID : Nat
  prevLogIndex : Nat
  prevLogTerm : Nat
  entries : List LogEntry
  leaderCommit : Nat
  readID : ReadID
  deriving DecidableEq, Repr

structure AppendEntriesResponse where
  sender : NodeID
  term : Nat
  requestID : Nat
  success : Bool
  matchIndex : Nat
  conflictTerm : Nat
  conflictIndex : Nat
  readID : ReadID
  deriving DecidableEq, Repr

/--
One bounded chunk of a Snapshot transfer.  The runtime stages the data and sets
`success` before the core sees the event, so the bytes, their announced length,
and their checksum are the runtime's and are not read here.
-/
structure InstallSnapshot where
  sender : NodeID
  term : Nat
  requestID : Nat
  snapshotIndex : Nat
  snapshotTerm : Nat
  offset : Nat
  done : Bool
  success : Bool
  nextOffset : Nat
  deriving DecidableEq, Repr

structure InstallSnapshotResponse where
  sender : NodeID
  term : Nat
  requestID : Nat
  snapshotIndex : Nat
  success : Bool
  nextOffset : Nat
  done : Bool
  deriving DecidableEq, Repr

structure ProposeSession where
  proposalID : ProposalID
  type : EntryType
  sessionID : SessionID
  deriving DecidableEq, Repr

structure ProposeSet where
  proposalID : ProposalID
  sessionID : SessionID
  sequence : UInt64
  key : Bytes
  value : Bytes
  deriving DecidableEq, Repr

structure ProposeDelete where
  proposalID : ProposalID
  sessionID : SessionID
  sequence : UInt64
  key : Bytes
  deriving DecidableEq, Repr

/-- One input to the deterministic state machine. -/
inductive Event where
  | electionTimeout
  | heartbeatTimeout
  | checkQuorumTimeout
  | hardStatePersisted (persistenceID : Nat)
  | logEntriesPersisted (persistenceID : Nat)
  | commitIndexPersisted (persistenceID : Nat)
  | snapshotPersisted (persistenceID : Nat)
  | recoverCommitted
  | snapshotCompacted (index term : Nat)
  | proposeSession (proposal : ProposeSession)
  | proposeSet (proposal : ProposeSet)
  | proposeDelete (proposal : ProposeDelete)
  | confirmRead (readID : ReadID)
  | preVoteRequest (request : PreVoteRequest)
  | preVoteResponse (response : PreVoteResponse)
  | voteRequest (request : VoteRequest)
  | voteResponse (response : VoteResponse)
  | appendEntries (request : AppendEntries)
  | appendEntriesResponse (response : AppendEntriesResponse)
  | appendEntriesFailed (dest : NodeID) (requestID : Nat)
  | installSnapshot (request : InstallSnapshot)
  | installSnapshotResponse (response : InstallSnapshotResponse)
  deriving DecidableEq, Repr

/-- One effect for the runtime to perform outside the core. -/
inductive Action where
  | persistHardState (persistenceID term : Nat) (votedFor : NodeID)
  | persistLogEntries (persistenceID truncateFrom : Nat) (entries : List LogEntry)
  | persistCommitIndex (persistenceID commitIndex : Nat)
  | persistSnapshot (persistenceID snapshotIndex snapshotTerm : Nat)
      (retainSuffix : Bool)
  | sendPreVoteRequest (dest : NodeID) (request : PreVoteRequest)
  | sendPreVoteResponse (dest : NodeID) (response : PreVoteResponse)
  | sendVoteRequest (dest : NodeID) (request : VoteRequest)
  | sendVoteResponse (dest : NodeID) (response : VoteResponse)
  | sendAppendEntries (dest : NodeID) (request : AppendEntries)
  | sendAppendEntriesResponse (dest : NodeID) (response : AppendEntriesResponse)
  | sendInstallSnapshot (dest : NodeID)
      (term requestID snapshotIndex snapshotTerm offset : Nat)
  | sendInstallSnapshotResponse (dest : NodeID) (response : InstallSnapshotResponse)
  | restoreSnapshot (snapshotIndex snapshotTerm : Nat)
  | resetElectionTimer
  | resetHeartbeatTimer
  | resetCheckQuorumTimer
  | becameLeader (term : Nat)
  | lostLeadership (term : Nat)
  | applyEntry (entry : LogEntry)
  | becameReadReady (term : Nat)
  | proposalAccepted (proposalID : ProposalID) (index : Nat)
  | proposalRejected (proposalID : ProposalID) (leaderID : NodeID)
  | readConfirmed (readID : ReadID) (commitIndex : Nat)
  | readRejected (readID : ReadID) (leaderID : NodeID)
  deriving DecidableEq, Repr

structure HardState where
  term : Nat := 0
  votedFor : NodeID := []
  deriving DecidableEq, Repr

/-- The durable consensus state the runtime restores before any event. -/
structure RecoveredState where
  hardState : HardState := {}
  log : List LogEntry := []
  commitIndex : Nat := 0
  snapshotIndex : Nat := 0
  snapshotTerm : Nat := 0
  deriving DecidableEq, Repr

structure PendingHardStatePersistence where
  term : Nat
  votedFor : NodeID
  after : List Action
  deriving DecidableEq, Repr

inductive LogPersistencePurpose where
  | persistLeaderEntry
  | persistFollowerAppend
  deriving DecidableEq, Repr

structure PendingLogPersistence where
  purpose : LogPersistencePurpose
  term : Nat
  leader : NodeID := []
  requestID : Nat := 0
  truncateFrom : Nat := 0
  lastIndex : Nat
  leaderCommit : Nat := 0
  readID : ReadID := 0
  deriving DecidableEq, Repr

structure PendingCommitPersistence where
  commitIndex : Nat
  after : List Action
  deriving DecidableEq, Repr

structure PendingSnapshotPersistence where
  request : InstallSnapshot
  retainSuffix : Bool
  deriving DecidableEq, Repr

/-- A read waiting for its quorum round; the list holding it is sorted by `id`. -/
structure PendingRead where
  id : ReadID
  acknowledgements : Finset NodeID
  commitIndex : Nat := 0
  confirmed : Bool := false
  deriving DecidableEq

structure PendingAppend where
  requestID : Nat := 0
  leaderCommit : Nat := 0
  deriving DecidableEq, Repr

/-- The consensus core of one Node.  It performs no I/O. -/
structure Node where
  id : NodeID
  peers : List NodeID
  role : Role := .follower
  term : Nat := 0
  votedFor : NodeID := []
  leaderID : NodeID := []
  lastLogIndex : Nat := 0
  lastLogTerm : Nat := 0
  durableLogIndex : Nat := 0
  logBaseIndex : Nat := 0
  logBaseTerm : Nat := 0
  log : List LogEntry := []
  commitIndex : Nat := 0
  lastApplied : Nat := 0
  readReady : Bool := false
  votes : Finset NodeID := ∅
  preVotes : Finset NodeID := ∅
  activePeers : Finset NodeID := ∅
  matchIndex : NodeID → Nat := fun _ => 0
  nextIndex : NodeID → Nat := fun _ => 0
  appendInFlight : NodeID → PendingAppend := fun _ => {}
  snapshotInFlight : NodeID → Nat := fun _ => 0
  nextRequestID : Nat := 0
  pendingReads : List PendingRead := []
  recentLeaderContact : Bool := false
  durableTerm : Nat := 0
  durableVotedFor : NodeID := []
  nextHardStatePersistence : Nat := 0
  pendingHardState : Nat → Option PendingHardStatePersistence := fun _ => none
  nextLogPersistence : Nat := 0
  pendingLog : Nat → Option PendingLogPersistence := fun _ => none
  durableCommitIndex : Nat := 0
  nextCommitPersistence : Nat := 0
  pendingCommit : Nat → Option PendingCommitPersistence := fun _ => none
  nextSnapshotPersistence : Nat := 0
  pendingSnapshot : Nat → Option PendingSnapshotPersistence := fun _ => none

end QuorumKV.Raft
