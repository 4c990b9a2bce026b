import QuorumKV.Cluster.Model
import QuorumKV.Foundation.Local
import QuorumKV.Raft.View

/-!
# What a cluster's state means

The relation between a cluster and a consensus state that explains it.  A disk
holds its node's term, vote, and log; a running core agrees with its disk; a
Candidate and a Leader are what the history says they are; every message tells
something that was true when it was sent and stays true.

Some of it holds in every run.  The rest, marked `guarded`, holds in runs where
no Leader takes in a stale rejection: what Followers acknowledged, what is
committed, and the state the session machines stand for.  What is marked
`prompt` too holds where mutations are answered without a proposal only by nodes
that have applied all that is committed.
-/

namespace QuorumKV

open Raft QuorumKV.Runtime Session Foundation

/-! ## Quorums -/

def Runtime.Config.Quorum (config : Config) (Q : Finset NodeID) : Prop :=
  Q ⊆ config.members.toFinset ∧ config.members.length / 2 + 1 ≤ Q.card

theorem Runtime.Config.quorum_inter (config : Config) (Q Q' : Finset NodeID)
    (h : config.Quorum Q) (h' : config.Quorum Q') : ∃ f ∈ Q, f ∈ Q' := by
  by_contra hnone
  have hdisjoint : Disjoint Q Q' := by
    rw [Finset.disjoint_left]
    exact fun f hf hf' => hnone ⟨f, hf, hf'⟩
  have hcard := Finset.card_le_card (Finset.union_subset h.1 h'.1)
  rw [Finset.card_union_of_disjoint hdisjoint, List.toFinset_card_of_nodup config.nodup] at hcard
  have hQ := h.2
  have hQ' := h'.2
  omega

namespace Cluster

/-- The consensus state that explains a cluster. -/
abbrev Ideal := Consensus NodeID LogEntry

/--
What a read finds when it begins: the nodes its term may still reach, and how
much was committed.
-/
structure Round where
  reached : Set NodeID
  floor : Nat

abbrev Rounds := Nat → ReadID → Option Round

/-- Reads begun by one node, in the terms it leads. -/
structure Rounds.Grows (σ : Ideal) (id : NodeID) (ρ ρ' : Rounds) : Prop where
  keeps : ∀ T readID round, ρ T readID = some round → ρ' T readID = some round
  others : ∀ T, σ.lead T ≠ some id → ρ' T = ρ T

theorem Rounds.Grows.refl (σ : Ideal) (id : NodeID) (ρ : Rounds) : Rounds.Grows σ id ρ ρ :=
  ⟨fun _ _ _ hround => hround, fun _ _ => rfl⟩

structure Tidy (config : Config) (σ : Ideal) : Prop where
  numbered : ∀ T, Numbered (σ.llog T)
  voted : ∀ f T c, σ.vote f T = some c → c ∈ config.members

theorem Tidy.log {config : Config} {σ : Ideal} (h : Tidy config σ)
    (hvalid : σ.Valid LogEntry.term config.Quorum) (f : NodeID) : Numbered (σ.log f) :=
  (h.numbered _).front (hvalid.inv.log_sound f).1.prefix_llog

/-- Steps of one node, the entries it appends and the votes it casts being well formed. -/
structure Acts (config : Config) (id : NodeID) (σ σ' : Ideal) : Prop extends
    Consensus.ActsAt LogEntry.term config.Quorum id σ σ' where
  tidy : Tidy config σ'

/-! ## Mutations and images -/

def Matches (entry : LogEntry) : Request → Prop
  | .session type session => entry.type = type ∧ entry.sessionID = session
  | .mutation session sequence =>
      IsMutation entry ∧ entry.sessionID = session ∧ entry.sequence = sequence

def Carries (log : List LogEntry) (position : Nat) (request : Request) : Prop :=
  0 < position ∧ ∃ entry, log[position - 1]? = some entry ∧ Matches entry request

/--
How a node that has applied the first `count` entries answers a request: with the
result of the entry that was asked for, or from its session machine.
-/
def Answers (config : Config) (log : List LogEntry) (count : Nat) (request : Request)
    (result : ProposalResult) : Prop :=
  (∃ position entry, position < count ∧ log[position]? = some entry ∧ Matches entry request ∧
      result = ((config.machine (log.take position)).apply entry).2) ∨
    ∃ session sequence, request = .mutation session sequence ∧
      (config.machine (log.take count)).evaluateMutation session sequence = (result, false)

def Image (config : Config) (log : List LogEntry) (file : Snapshot.State) : Prop :=
  file.includedIndex ≤ log.length ∧
    file = (config.machine (log.take file.includedIndex)).snapshot file.identity
      file.includedIndex (termAt LogEntry.term log file.includedIndex)

def Filed (files : List Snapshot.State) (index term : Nat) : Prop :=
  ∃ file ∈ files, file.includedIndex = index ∧ file.includedTerm = term

section Invariants

variable (config : Config) (guarded prompt : Prop) (σ : Ideal) (ρ : Rounds)

/-! ## Disks and cores -/

structure Stored (id : NodeID) (files : List Snapshot.State) (disk : Disk) : Prop where
  term_eq : disk.hardState.term = σ.term id
  vote_eq : disk.hardState.votedFor = (σ.vote id (σ.term id)).getD []
  base_le : disk.snapshotIndex ≤ disk.commitIndex
  commit_le : disk.commitIndex ≤ (σ.log id).length
  baseTerm : disk.snapshotTerm = termAt LogEntry.term (σ.log id) disk.snapshotIndex
  log_eq : disk.log = (σ.log id).drop disk.snapshotIndex
  filed : 0 < disk.snapshotIndex → Filed files disk.snapshotIndex disk.snapshotTerm
  known : guarded → σ.Known (σ.term id) ((σ.log id).take disk.commitIndex)

/-- A core between two events: everything it decided is durable. -/
structure AtRest (id : NodeID) (files : List Snapshot.State) (disk : Disk) (n : Node) :
    Prop where
  id_eq : n.id = id
  peers_eq : n.peers = (config.peers id).insertionSort (· ≤ ·)
  holds : n.Holds (σ.log id)
  term_eq : n.term = σ.term id
  vote_eq : n.votedFor = disk.hardState.votedFor
  commit_eq : n.commitIndex = disk.commitIndex
  base_le : n.logBaseIndex ≤ n.lastApplied
  applied_le : n.lastApplied ≤ n.commitIndex
  durableTerm : n.durableTerm = n.term
  durableVote : n.durableVotedFor = n.votedFor
  durableLog : n.durableLogIndex = n.lastLogIndex
  durableCommit : n.durableCommitIndex = n.commitIndex
  noHardState : n.pendingHardState = fun _ => none
  noLog : n.pendingLog = fun _ => none
  noCommit : n.pendingCommit = fun _ => none
  noSnapshot : n.pendingSnapshot = fun _ => none
  filed : 0 < n.logBaseIndex → Filed files n.logBaseIndex n.logBaseTerm

structure Campaigns (id : NodeID) (n : Node) : Prop where
  votes : ∀ f ∈ n.votes, f ∈ config.members ∧ σ.vote f n.term = some id
  own : σ.vote id n.term = some id
  cand : σ.cand id n.term = σ.log id
  fresh : σ.lead n.term ≠ some id

structure Leads (id : NodeID) (n : Node) : Prop where
  leads : σ.lead n.term = some id
  holds : σ.log id = σ.llog n.term
  last : lastTerm LogEntry.term (σ.llog n.term) = n.term

def nextFor (n : Node) (peer : NodeID) : Nat :=
  if n.nextIndex peer = 0 ∨ n.nextIndex peer > n.lastLogIndex + 1 then n.lastLogIndex + 1
  else n.nextIndex peer

structure Reads (n : Node) (read : PendingRead) : Prop where
  positive : read.id ≠ 0
  members : ∀ f ∈ read.acknowledgements, f ∈ config.members
  begun : ∃ round, ρ n.term read.id = some round ∧
    (∀ f ∈ read.acknowledgements, f ∈ round.reached) ∧
    (read.confirmed = true → round.floor ≤ read.commitIndex)

/-- What a Leader knows about its peers and its reads. -/
structure Replicates (id : NodeID) (n : Node) : Prop where
  own : (σ.llog n.term).length ≤ σ.ack id n.term
  matched : ∀ f, n.matchIndex f ≤ σ.ack f n.term
  next : ∀ f, σ.Offers LogEntry.term n.term f (nextFor n f - 1)
    (min (max (nextFor n f) n.logBaseIndex) n.lastLogIndex)
  snapshot : ∀ f, n.snapshotInFlight f ≠ 0 → 0 < n.logBaseIndex ∧
    σ.Offers LogEntry.term n.term f n.logBaseIndex n.logBaseIndex
  commit_ge : σ.lcommit n.term ≤ n.commitIndex
  ready : n.readReady = true → 0 < σ.lcommit n.term
  reads : ∀ read ∈ n.pendingReads, Reads config ρ n read

/-! ## Messages -/

structure TrueVoteRequest (r : VoteRequest) : Prop where
  campaigns : σ.vote r.sender r.term = some r.sender
  lastIndex : r.lastLogIndex = (σ.cand r.sender r.term).length
  lastTerm_eq : r.lastLogTerm = lastTerm LogEntry.term (σ.cand r.sender r.term)

structure TrueVoteResponse (dest : NodeID) (r : VoteResponse) : Prop where
  member : r.sender ∈ config.members
  granted : r.granted = true → σ.vote r.sender r.term = some dest

structure TrueAppend (dest : NodeID) (r : AppendEntries) : Prop where
  leads : σ.lead r.term = some r.sender
  other : dest ≠ r.sender
  inside : r.prevLogIndex + r.entries.length ≤ (σ.llog r.term).length
  prevTerm : r.prevLogTerm = termAt LogEntry.term (σ.llog r.term) r.prevLogIndex
  entries_eq : r.entries = ((σ.llog r.term).drop r.prevLogIndex).take r.entries.length
  commit_le : r.leaderCommit ≤ (σ.llog r.term).length
  known : guarded → σ.Known r.term ((σ.llog r.term).take r.leaderCommit)
  offer : guarded → σ.Offers LogEntry.term r.term dest r.prevLogIndex
    (r.prevLogIndex + min 1 r.entries.length)
  read : guarded → r.readID ≠ 0 → ρ r.term r.readID ≠ none

structure TrueResponse (dest : NodeID) (r : AppendEntriesResponse) : Prop where
  member : r.sender ∈ config.members
  other : r.sender ≠ dest
  matched : guarded → r.success = true →
    r.matchIndex ≤ σ.ack r.sender r.term ∧ σ.Follows r.term r.sender
  hint : guarded → r.success = false → r.conflictIndex ≠ 0 →
    σ.Hint LogEntry.term r.term r.sender r.conflictTerm r.conflictIndex
  read : guarded → r.readID ≠ 0 → r.success = true ∨ r.conflictIndex ≠ 0 →
    ∃ round, ρ r.term r.readID = some round ∧ r.sender ∈ round.reached

/-- What `sendInstallSnapshot` announces, before a file is read for it. -/
structure TrueSnapshot (dest sender : NodeID) (term requestID index snapshotTerm : Nat) :
    Prop where
  leads : σ.lead term = some sender
  other : dest ≠ sender
  numbered : requestID ≠ 0
  inside : index ≤ (σ.llog term).length
  term_eq : snapshotTerm = termAt LogEntry.term (σ.llog term) index
  known : guarded → σ.Known term ((σ.llog term).take index)
  offer : guarded → σ.Offers LogEntry.term term dest index index

/-- A Snapshot file of a node: under its identity, and an image of what is committed. -/
def Owned (id : NodeID) (file : Snapshot.State) : Prop :=
  file.identity = snapshotIdentity config id ∧ (guarded → Image config σ.chosen file)

/-- The offset lies within the node's file at the position. -/
def Fits (id : NodeID) (index offset : Nat) : Prop :=
  ∃ file, Owned config guarded σ id file ∧ file.includedIndex = index ∧
    offset ≤ config.fileLength file

/-- What a staged chunk brings with it: the Leader's announcement, and where it goes on. -/
structure TrueInstall (dest : NodeID) (r : InstallSnapshot) : Prop extends
    TrueSnapshot guarded σ dest r.sender r.term r.requestID r.snapshotIndex r.snapshotTerm where
  fits : r.success = true → Fits config guarded σ r.sender r.snapshotIndex r.nextOffset

structure TrueSnapshotResponse (dest : NodeID) (r : InstallSnapshotResponse) : Prop where
  other : r.sender ≠ dest
  numbered : r.requestID ≠ 0
  fits : r.success = true → Fits config guarded σ dest r.snapshotIndex r.nextOffset
  installed : guarded → r.success = true → r.done = true →
    r.snapshotIndex ≤ σ.ack r.sender r.term ∧ σ.Follows r.term r.sender

def Truthful (dest : NodeID) : Message → Prop
  | .preVoteRequest _ | .preVoteResponse _ => True
  | .voteRequest r => TrueVoteRequest σ r
  | .voteResponse r => TrueVoteResponse config σ dest r
  | .appendEntries r => TrueAppend guarded σ ρ dest r
  | .appendEntriesResponse r => TrueResponse config guarded σ ρ dest r
  | .installSnapshot chunk =>
      TrueSnapshot guarded σ dest chunk.sender chunk.term chunk.requestID
          chunk.file.includedIndex chunk.file.includedTerm ∧
        Owned config guarded σ chunk.sender chunk.file
  | .installSnapshotResponse r => TrueSnapshotResponse config guarded σ dest r

/-! ## What a run has shown -/

def Succeeds (result : ProposalResult) : Prop :=
  result.rejected = false ∧ result.failure = .succeeded

/-- Every request acknowledged in `shown` is among the first `count` committed entries. -/
def Covers (shown : List Observation) (count : Nat) : Prop :=
  ∀ node waiter result, .answered node waiter result ∈ shown → Succeeds result →
    ∃ position ≤ count, Carries σ.chosen position waiter.request

def TrueObservation (trace : List Observation) : Observation → Prop
  | .applied _ entry => 0 < entry.index ∧ σ.chosen[entry.index - 1]? = some entry
  | .restored _ index term sessions => index ≤ σ.chosen.length ∧
      term = termAt LogEntry.term σ.chosen index ∧
      sessions = config.machine (σ.chosen.take index)
  | .readConfirmed _ _ since sessions => since ≤ trace.length ∧
      ∃ count ≤ σ.chosen.length, sessions = config.machine (σ.chosen.take count) ∧
        Covers σ (trace.take since) count
  | .answered _ waiter result => prompt → ∀ session sequence,
      waiter.request = .mutation session sequence → result.rejected = false →
      result.failure ≠ .succeeded → waiter.since ≤ trace.length ∧
        ∃ count ≤ σ.chosen.length, Covers σ (trace.take waiter.since) count ∧
          ((config.machine (σ.chosen.take count)).evaluateMutation session sequence).1 = result
  | _ => True

/-- `commits` is how much each node has durably committed. -/
structure TrueTrace (commits : NodeID → Nat) (trace : List Observation) : Prop where
  elected : ∀ node term, .becameLeader node term ∈ trace → σ.lead term = some node
  observed : guarded → ∀ observation ∈ trace,
    TrueObservation config prompt σ trace observation
  covered : guarded → ∀ node waiter result, .answered node waiter result ∈ trace →
    Succeeds result → ∃ position ≤ commits node, Carries σ.chosen position waiter.request

/-- A client of the Leader of `T` waits for an entry it appended and has not applied. -/
structure Waits (id : NodeID) (T applied index : Nat) (request : Request) : Prop where
  carries : Carries (σ.log id) index request
  own : termAt LogEntry.term (σ.log id) index = T
  later : applied < index

/--
Everything acknowledged before a request is behind the position it waits for,
unless the position can no longer be committed in the term it was proposed in.
-/
def Awaits (trace : List Observation) (T index since : Nat) : Prop :=
  Covers σ (trace.take since) (index - 1) ∨
    ∃ Q, config.Quorum Q ∧ ∀ f ∈ Q, T < σ.term f ∧ σ.ack f T < index

/-- What a read that began in a term finds of the terms and commits of that moment. -/
def TrueRounds : Prop :=
  ∀ T readID round, ρ T readID = some round → σ.lead T ≠ none ∧
    (∀ f, σ.term f ≤ T → f ∈ round.reached) ∧ round.floor ≤ σ.chosen.length ∧
      ((∃ Q, config.Quorum Q ∧ ∀ f ∈ Q, f ∈ round.reached) → round.floor ≤ σ.lcommit T)

/-! ## Processes and servers -/

structure Captures (id : NodeID) (disk : Disk) (files : List Snapshot.State)
    (capture : Capture) : Prop where
  position : capture.state.includedIndex ≤ disk.snapshotIndex ∨
    (capture.state.includedIndex ≤ disk.commitIndex ∧
      capture.state.includedTerm =
        termAt LogEntry.term (σ.log id) capture.state.includedIndex)
  saved : capture.phase ≠ .captured → capture.state ∈ files
  owned : Owned config guarded σ id capture.state

structure Serves (trace : List Observation) (id : NodeID) (disk : Disk)
    (files : List Snapshot.State) (p : Process) : Prop where
  member : id ∈ config.members
  rest : AtRest config σ id files disk p.core
  campaigns : p.core.role = .candidate → Campaigns config σ id p.core
  leads : p.core.role = .leader → Leads σ id p.core
  replicates : guarded → p.core.role = .leader → Replicates config σ ρ id p.core
  idle : p.core.role ≠ .leader →
    p.core.pendingReads = [] ∧ p.pending = [] ∧ ∀ session, p.inFlightMutations session = none
  sessions : guarded → p.sessions = config.machine (σ.chosen.take p.core.lastApplied)
  waiting : guarded → ∀ index waiter, (index, waiter) ∈ p.pending →
    Waits σ id p.core.term p.core.lastApplied index waiter.request
  awaiting : guarded → prompt → ∀ index waiter, (index, waiter) ∈ p.pending →
    Awaits config σ trace p.core.term index waiter.since
  inFlight : guarded → ∀ session sequence index,
    p.inFlightMutations session = some (sequence, index) →
    Waits σ id p.core.term p.core.lastApplied index (.mutation session sequence)
  incoming : guarded → ∀ receiving, p.incoming = some receiving →
    Image config σ.chosen receiving.file
  ready : ∀ file, p.readySnapshot = some file → file ∈ files
  capture : ∀ capture, p.capture = some capture →
    Captures config guarded σ id disk files capture
  begun : ∀ read ∈ p.core.pendingReads, read.id ∈ p.readsBegun.map Prod.fst
  asked : guarded → p.core.role = .leader → ∀ readID, ρ p.core.term readID ≠ none →
    readID ∈ p.readsBegun.map Prod.fst
  stamped : ∀ readID since, (readID, since) ∈ p.readsBegun → since ≤ trace.length
  arrived : ∀ index waiter, (index, waiter) ∈ p.pending → waiter.since ≤ trace.length
  since : guarded → ∀ read ∈ p.core.pendingReads, ∀ since, (read.id, since) ∈ p.readsBegun →
    ∀ round, ρ p.core.term read.id = some round → Covers σ (trace.take since) round.floor

structure Runs (trace : List Observation) (id : NodeID) (server : Server) : Prop where
  stored : Stored guarded σ id server.files server.disk
  owned : ∀ file ∈ server.files, Owned config guarded σ id file
  serves : ∀ p, server.process = some p →
    Serves config guarded prompt σ ρ trace id server.disk server.files p

/-- The consensus state and the read rounds explain the cluster. -/
structure Explains (c : Cluster) : Prop where
  valid : σ.Valid LogEntry.term config.Quorum
  tidy : Tidy config σ
  rounds : guarded → TrueRounds config σ ρ
  servers : ∀ id, Runs config guarded prompt σ ρ c.trace id (c.servers id)
  network : ∀ packet ∈ c.network, Truthful config guarded σ ρ packet.dest packet.message
  trace : TrueTrace config guarded prompt σ (fun id => (c.servers id).disk.commitIndex) c.trace

end Invariants

end Cluster

end QuorumKV
