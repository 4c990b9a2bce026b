import QuorumKV.Runtime.Step
import QuorumKV.Session.Snapshot

/-!
# The loop that owns a Node

`runRaft` of `internal/node/runtime_loop.go` and `openRaftRuntime`.  A `Process`
is the loop's state between two events: the core, the session machine, the
clients waiting for an answer, and the Snapshot being received or captured.
A `Server` is what survives a crash, with the process while it runs.

One event runs to its end before the next: its Snapshot chunk is staged, its
mutation is answered at once where that is possible, the runtime steps, and the
emitted actions are carried out in order.  A Snapshot file travels as itself
with the position and size of each chunk: the loop compares files by position,
length, and checksum, which are taken to tell different files apart.
Timers, metrics, and contexts are left out; an answer that nobody awaits any
more can be dropped at any time.
-/

namespace QuorumKV.Runtime

open Raft Session

structure Config where
  clusterID : Bytes
  members : List NodeID
  nodup : members.Nodup
  named : [] ∉ members
  activeSessionLimit : Int
  /-- The length of a Snapshot file, header included. -/
  fileLength : Snapshot.State → Nat

def Config.peers (config : Config) (id : NodeID) : List NodeID :=
  config.members.filter fun member => member ≠ id

def Config.machine (config : Config) (log : List LogEntry) : SessionMachine :=
  (newSessionMachine config.activeSessionLimit).applyAll log

def snapshotIdentity (config : Config) (id : NodeID) : Snapshot.Identity :=
  { clusterID := config.clusterID
    nodeID := id
    memberIDs := config.members.insertionSort (· ≤ ·) }

def snapshotClusterMatches (got want : Snapshot.Identity) : Bool :=
  got.clusterID == want.clusterID && got.memberIDs == want.memberIDs

/-! ## Messages and observations -/

/-- One chunk of a Snapshot file, as `sendSnapshot` reads it. -/
structure Chunk where
  sender : NodeID
  term : Nat
  requestID : Nat
  file : Snapshot.State
  offset : Nat
  size : Nat
  done : Bool
  deriving DecidableEq

inductive Message where
  | preVoteRequest (request : PreVoteRequest)
  | preVoteResponse (response : PreVoteResponse)
  | voteRequest (request : VoteRequest)
  | voteResponse (response : VoteResponse)
  | appendEntries (request : AppendEntries)
  | appendEntriesResponse (response : AppendEntriesResponse)
  | installSnapshot (chunk : Chunk)
  | installSnapshotResponse (response : InstallSnapshotResponse)
  deriving DecidableEq

structure Packet where
  dest : NodeID
  message : Message
  deriving DecidableEq

/-- What a client asked for, as far as the loop tells requests apart. -/
inductive Request where
  | session (type : EntryType) (session : SessionID)
  | mutation (session : SessionID) (sequence : UInt64)
  deriving DecidableEq, Repr

def Request.mutation? : Request → Option (SessionID × UInt64)
  | .session _ _ => none
  | .mutation id sequence => some (id, sequence)

/-- A client waiting for its proposal; `since` is how much had been shown when it asked. -/
structure Waiter where
  client : Nat
  request : Request
  since : Nat
  deriving DecidableEq, Repr

/--
What a run shows.  `becameLeader` is a core entering the role, and `since` is how
much had been shown when the confirmed read was stepped.
-/
inductive Observation where
  | applied (node : NodeID) (entry : LogEntry)
  | restored (node : NodeID) (index term : Nat) (sessions : SessionMachine)
  | becameLeader (node : NodeID) (term : Nat)
  | answered (node : NodeID) (waiter : Waiter) (result : ProposalResult)
  | readConfirmed (node : NodeID) (readID : ReadID) (since : Nat) (sessions : SessionMachine)
  | readAnswered (node : NodeID) (readID : ReadID) (value : Bytes × Bool)
  | readRejected (node : NodeID) (readID : ReadID)

/-! ## Processes and servers -/

/-- A Snapshot transfer being received: the file and the bytes of it staged so far. -/
structure Incoming where
  file : Snapshot.State
  staged : Nat

inductive CapturePhase where
  | captured
  | saved
  | compacted
  deriving DecidableEq, Repr

/-- A local Snapshot on its way to disk in its own goroutine. -/
structure Capture where
  state : Snapshot.State
  phase : CapturePhase := .captured

structure Process where
  core : Node
  sessions : SessionMachine
  incoming : Option Incoming := none
  readySnapshot : Option Snapshot.State := none
  capture : Option Capture := none
  /-- `pending`, as pairs of log index and waiter in order of arrival. -/
  pending : List (Nat × Waiter) := []
  inFlightMutations : SessionID → Option (UInt64 × Nat) := fun _ => none
  pendingReads : List (ReadID × Bytes) := []
  /-- Every read of this process, with how much had been shown when it was stepped. -/
  readsBegun : List (ReadID × Nat) := []

/-- What survives a crash, and the process while it runs. -/
structure Server where
  disk : Disk := {}
  files : List Snapshot.State := []
  process : Option Process := none

/-! ## Carrying out actions -/

/-- The state of the action loop; `waiter` is the client whose proposal is stepped. -/
structure LoopState where
  process : Process
  waiter : Option Waiter := none
  sent : List Packet := []
  observed : List Observation := []

def LoopState.send (state : LoopState) (dest : NodeID) (message : Message) : LoopState :=
  { state with sent := state.sent ++ [⟨dest, message⟩] }

def LoopState.observe (state : LoopState) (observed : List Observation) : LoopState :=
  { state with observed := state.observed ++ observed }

/-- The chunk `sendSnapshot` reads from one of the sender's files, when it has one. -/
def snapshotChunk (config : Config) (id : NodeID) (files : List Snapshot.State)
    (term requestID index snapshotTerm offset : Nat) : Option Chunk :=
  match files.find? fun file =>
      file.includedIndex == index && file.includedTerm == snapshotTerm with
  | none => none
  | some file =>
      let length := config.fileLength file
      if offset > length then none
      else
        let last := min (offset + 64 * 2 ^ 10) length
        some ⟨id, term, requestID, file, offset, last - offset, last == length⟩

def applyEntry (id : NodeID) (state : LoopState) (entry : LogEntry) : LoopState :=
  let process := state.process
  let applied := process.sessions.apply entry
  let waiting : List (Nat × Waiter) :=
    process.pending.filter fun waiting => waiting.1 == entry.index
  let inFlight := ((process.inFlightMutations entry.sessionID).map Prod.fst).getD 0
  let state := { state with
    process := { process with
      sessions := applied.1
      inFlightMutations :=
        if IsMutation entry ∧ inFlight = entry.sequence then
          Function.update process.inFlightMutations entry.sessionID none
        else process.inFlightMutations
      pending := process.pending.filter fun waiting => waiting.1 != entry.index } }
  state.observe (.applied id entry :: waiting.map fun waiting =>
    .answered id waiting.2 applied.2)

/-- Restore the staged Snapshot; the loop ends when it is not the one announced. -/
def restoreSnapshot (id : NodeID) (state : LoopState) (index term : Nat) :
    Option LoopState :=
  match state.process.readySnapshot with
  | none => none
  | some ready =>
      if ready.includedIndex ≠ index ∨ ready.includedTerm ≠ term then none
      else
        match state.process.sessions.restore (some ready) with
        | .error _ => none
        | .ok sessions =>
            let process := { state.process with sessions := sessions, readySnapshot := none }
            some ({ state with process := process }.observe [.restored id index term sessions])

/-- Register the client of an accepted proposal, and its mutation as in flight. -/
def acceptProposal (state : LoopState) (index : Nat) : LoopState :=
  match state.waiter with
  | none => state
  | some waiter =>
      { state with
        process := { state.process with
          pending := state.process.pending ++ [(index, waiter)]
          inFlightMutations :=
            match waiter.request.mutation? with
            | none => state.process.inFlightMutations
            | some (session, sequence) =>
                Function.update state.process.inFlightMutations session
                  (some (sequence, index)) } }

def confirmRead (id : NodeID) (state : LoopState) (readID : ReadID) : LoopState :=
  let process := state.process
  let begun : List (ReadID × Nat) := process.readsBegun.filter fun begun => begun.1 == readID
  let waiting : List (ReadID × Bytes) :=
    process.pendingReads.filter fun waiting => waiting.1 == readID
  let state := { state with
    process := { process with
      pendingReads := process.pendingReads.filter fun waiting => waiting.1 != readID } }
  state.observe ((begun.map fun begun =>
      .readConfirmed id readID begun.2 process.sessions) ++
    waiting.map fun waiting => .readAnswered id readID (process.sessions.get waiting.2))

def rejectRead (id : NodeID) (state : LoopState) (readID : ReadID) : LoopState :=
  let process := { state.process with
    pendingReads := state.process.pendingReads.filter fun waiting => waiting.1 != readID }
  { state with process := process }.observe [.readRejected id readID]

/-- One action of the loop, `none` when the loop returns an error. -/
def carryOut (config : Config) (id : NodeID) (files : List Snapshot.State)
    (state : LoopState) : Action → Option LoopState
  | .sendPreVoteRequest dest request => some (state.send dest (.preVoteRequest request))
  | .sendPreVoteResponse dest response => some (state.send dest (.preVoteResponse response))
  | .sendVoteRequest dest request => some (state.send dest (.voteRequest request))
  | .sendVoteResponse dest response => some (state.send dest (.voteResponse response))
  | .sendAppendEntries dest request => some (state.send dest (.appendEntries request))
  | .sendAppendEntriesResponse dest response =>
      some (state.send dest (.appendEntriesResponse response))
  | .sendInstallSnapshotResponse dest response =>
      some (state.send dest (.installSnapshotResponse response))
  | .sendInstallSnapshot dest term requestID index snapshotTerm offset =>
      match snapshotChunk config id files term requestID index snapshotTerm offset with
      | none => some state
      | some chunk => some (state.send dest (.installSnapshot chunk))
  | .restoreSnapshot index term => restoreSnapshot id state index term
  | .applyEntry entry => some (applyEntry id state entry)
  | .proposalAccepted _ index => some (acceptProposal state index)
  | .proposalRejected _ leaderID =>
      match state.waiter with
      | none => some state
      | some waiter =>
          some (state.observe [.answered id waiter { leaderID := leaderID, rejected := true }])
  | .readConfirmed readID _ => some (confirmRead id state readID)
  | .readRejected readID _ => some (rejectRead id state readID)
  | _ => some state

def carryOutAll (config : Config) (id : NodeID) (files : List Snapshot.State) :
    LoopState → List Action → Option LoopState
  | state, [] => some state
  | state, action :: actions =>
      match carryOut config id files state action with
      | none => none
      | some state => carryOutAll config id files state actions

/-- Losing leadership rejects every client that still waits. -/
def afterActions (id : NodeID) (wasLeader : Bool) (state : LoopState) : LoopState :=
  if wasLeader ∧ state.process.core.role ≠ .leader then
    let process := { state.process with
      pending := []
      inFlightMutations := fun _ => none
      pendingReads := [] }
    let rejection : ProposalResult :=
      { leaderID := state.process.core.leaderID, rejected := true }
    let answers : List Observation :=
      state.process.pending.map fun waiting => .answered id waiting.2 rejection
    let reads : List Observation :=
      state.process.pendingReads.map fun waiting => .readRejected id waiting.1
    { state with process := process }.observe (answers ++ reads)
  else state

/-! ## What the actions leave alone -/

section Carrying

variable {config : Config} {id : NodeID} {files : List Snapshot.State} {state state' : LoopState}

theorem carryOut_core {action : Action} (h : carryOut config id files state action = some state') :
    state'.process.core = state.process.core ∧ state'.waiter = state.waiter := by
  cases action with
  | sendInstallSnapshot dest term requestID index snapshotTerm offset =>
      simp only [carryOut] at h
      split at h <;> exact Option.some.inj h ▸ ⟨rfl, rfl⟩
  | restoreSnapshot index term =>
      simp only [carryOut, restoreSnapshot] at h
      split at h
      · simp at h
      · split at h
        · simp at h
        · split at h
          · simp at h
          · exact Option.some.inj h ▸ ⟨rfl, rfl⟩
  | proposalAccepted proposalID index =>
      obtain rfl := Option.some.inj h
      unfold acceptProposal
      split <;> exact ⟨rfl, rfl⟩
  | proposalRejected proposalID leaderID =>
      simp only [carryOut] at h
      split at h <;> exact Option.some.inj h ▸ ⟨rfl, rfl⟩
  | _ => exact Option.some.inj h ▸ ⟨rfl, rfl⟩

theorem carryOutAll_core {actions : List Action}
    (h : carryOutAll config id files state actions = some state') :
    state'.process.core = state.process.core := by
  induction actions generalizing state with
  | nil => exact Option.some.inj h ▸ rfl
  | cons action actions ih =>
      rw [carryOutAll] at h
      split at h
      · simp at h
      next next hnext => exact (ih h).trans (carryOut_core hnext).1

theorem afterActions_core (wasLeader : Bool) :
    (afterActions id wasLeader state).process.core = state.process.core := by
  unfold afterActions
  split <;> rfl

end Carrying

end QuorumKV.Runtime
