import QuorumKV.Raft.Log

/-!
# The consensus core

`Node.step` and its handlers, one definition for each function of `raft.go`,
under the source's names.  A handler takes the Node before the event and
returns the Node after it together with its actions in execution order.
-/

namespace QuorumKV.Raft

/-- `NewNodeFromRecoveredState`: a Follower whose state is durable by definition. -/
def newNodeFromRecoveredState (id : NodeID) (peers : List NodeID)
    (recovered : RecoveredState) : Node :=
  let recovered :=
    match recovered.log with
    | [] => recovered
    | first :: _ =>
        if recovered.snapshotIndex > 0 ∧ first.index = 1 ∧
            recovered.snapshotIndex ≤ recovered.log.length then
          { recovered with
            snapshotTerm :=
              if recovered.snapshotTerm = 0 then
                (recovered.log[recovered.snapshotIndex - 1]?).elim 0 LogEntry.term
              else recovered.snapshotTerm
            log := recovered.log.drop recovered.snapshotIndex }
        else recovered
  { id := id
    peers := peers.insertionSort (· ≤ ·)
    term := recovered.hardState.term
    votedFor := recovered.hardState.votedFor
    durableTerm := recovered.hardState.term
    durableVotedFor := recovered.hardState.votedFor
    commitIndex := recovered.commitIndex
    durableCommitIndex := recovered.commitIndex
    lastApplied := recovered.snapshotIndex
    logBaseIndex := recovered.snapshotIndex
    logBaseTerm := recovered.snapshotTerm
    log := recovered.log
    lastLogIndex := (recovered.log.getLast?).elim recovered.snapshotIndex LogEntry.index
    lastLogTerm := (recovered.log.getLast?).elim recovered.snapshotTerm LogEntry.term
    durableLogIndex :=
      (recovered.log.getLast?).elim recovered.snapshotIndex LogEntry.index }

def logIsAtLeastAsUpToDate
    (candidateTerm candidateIndex localTerm localIndex : Nat) : Bool :=
  candidateTerm > localTerm ||
    (candidateTerm == localTerm && candidateIndex ≥ localIndex)

def insertRead (read : PendingRead) : List PendingRead → List PendingRead
  | [] => [read]
  | first :: rest =>
      if read.id < first.id then read :: first :: rest
      else if read.id = first.id then read :: rest
      else first :: insertRead read rest

namespace Node

def lastAppliedTerm (n : Node) : Nat :=
  if n.lastApplied > 0 then n.termAt n.lastApplied else 0

/-! ## Durability requests -/

def persistHardState (n : Node) (after : List Action) : Node × List Action :=
  let id := n.nextHardStatePersistence + 1
  ({ n with
      nextHardStatePersistence := id
      pendingHardState :=
        Function.update n.pendingHardState id (some ⟨n.term, n.votedFor, after⟩) },
    [.persistHardState id n.term n.votedFor])

def persistLog (n : Node) (entries : List LogEntry)
    (pending : PendingLogPersistence) : Node × List Action :=
  let id := n.nextLogPersistence + 1
  ({ n with
      nextLogPersistence := id
      pendingLog := Function.update n.pendingLog id (some pending) },
    [.persistLogEntries id pending.truncateFrom entries])

def persistCommit (n : Node) (after : List Action) : Node × List Action :=
  let id := n.nextCommitPersistence + 1
  ({ n with
      nextCommitPersistence := id
      pendingCommit :=
        Function.update n.pendingCommit id (some ⟨n.commitIndex, after⟩) },
    [.persistCommitIndex id n.commitIndex])

def persistSnapshot (n : Node) (request : InstallSnapshot) (retainSuffix : Bool) :
    Node × List Action :=
  let id := n.nextSnapshotPersistence + 1
  ({ n with
      nextSnapshotPersistence := id
      pendingSnapshot :=
        Function.update n.pendingSnapshot id (some ⟨request, retainSuffix⟩) },
    [.persistSnapshot id request.snapshotIndex request.snapshotTerm retainSuffix])

/-! ## Responses and role changes -/

def voteResponse (n : Node) (dest : NodeID) (granted : Bool) : List Action :=
  [.sendVoteResponse dest ⟨n.id, n.term, granted⟩]

def appendEntriesResponse (n : Node) (dest : NodeID) (requestID : Nat)
    (success : Bool) (matchIndex conflictTerm conflictIndex : Nat)
    (readID : ReadID) : List Action :=
  [.sendAppendEntriesResponse dest
    ⟨n.id, n.term, requestID, success, matchIndex, conflictTerm, conflictIndex, readID⟩]

def snapshotResponse (n : Node) (request : InstallSnapshot) (success : Bool)
    (nextOffset : Nat) (done : Bool) : List Action :=
  [.sendInstallSnapshotResponse request.sender
    ⟨n.id, n.term, request.requestID, request.snapshotIndex, success, nextOffset, done⟩]

def candidateLogIsUpToDate (n : Node) (term index : Nat) : Bool :=
  logIsAtLeastAsUpToDate term index n.lastLogTerm n.lastLogIndex

def voteIsDurable (n : Node) (candidate : NodeID) : Bool :=
  n.durableTerm == n.term && n.durableVotedFor == candidate

def becomeFollower (n : Node) (term : Nat) (leader : NodeID) : Node :=
  { n with
    votedFor := if term > n.term then [] else n.votedFor
    role := .follower
    term := term
    leaderID := leader
    recentLeaderContact := leader ≠ []
    votes := ∅
    preVotes := ∅
    activePeers := ∅
    matchIndex := fun _ => 0
    nextIndex := fun _ => 0
    appendInFlight := fun _ => {}
    snapshotInFlight := fun _ => 0
    pendingReads := []
    readReady := false }

/-- Recognize `leader` as the Leader of the current or a newer term. -/
def recognizeLeader (n : Node) (term : Nat) (leader : NodeID) : Node :=
  let n :=
    if term > n.term then n.becomeFollower term leader
    else { n with role := .follower, leaderID := leader, readReady := false }
  { n with recentLeaderContact := true }

/-- Defer `after` behind a hard-state write when the event changed the term. -/
def afterTermChange (n : Node) (termChanged : Bool) (after : List Action) :
    Node × List Action :=
  if termChanged then n.persistHardState after else (n, after)

/-! ## Reads and application -/

def pendingReadFor (n : Node) (peer : NodeID) : ReadID :=
  ((n.pendingReads.find? fun read => peer ∉ read.acknowledgements)).elim 0 PendingRead.id

def completeReads (n : Node) : Node × List Action :=
  let finished := fun read : PendingRead =>
    read.confirmed && decide (read.commitIndex ≤ n.lastApplied)
  ({ n with pendingReads := n.pendingReads.filter fun read => !finished read },
    (n.pendingReads.filter finished).map fun read =>
      .readConfirmed read.id read.commitIndex)

/-- The application loop of `applyThrough`, `count` positions forward. -/
def applyLoop : Nat → Node → Node × List Action
  | 0, n => (n, [])
  | count + 1, n =>
      match n.log[n.lastApplied + 1 - n.logBaseIndex - 1]? with
      | none => (n, [])
      | some entry =>
          let becomesReady := n.role = .leader ∧ n.readReady = false ∧
            entry.type = .noOp ∧ entry.term = n.term
          let applied := applyLoop count
            { n with
              lastApplied := n.lastApplied + 1
              readReady := n.readReady || decide becomesReady }
          (applied.1,
            .applyEntry entry ::
              ((if becomesReady then [.becameReadReady n.term] else []) ++ applied.2))

def applyThrough (n : Node) (index : Nat) : Node × List Action :=
  if index ≤ n.lastApplied then n.completeReads
  else
    let applied := n.applyLoop (index - n.lastApplied)
    let completed := applied.1.completeReads
    (completed.1, applied.2 ++ completed.2)

def acknowledgeRead (n : Node) (response : AppendEntriesResponse) :
    Node × List Action :=
  match n.pendingReads.find? fun read => read.id = response.readID with
  | none => (n, [])
  | some read =>
      if response.readID = 0 ∨ read.confirmed then (n, [])
      else
        let acknowledged :=
          { read with acknowledgements := insert response.sender read.acknowledgements }
        if acknowledged.acknowledgements.card < n.quorum then
          ({ n with pendingReads := insertRead acknowledged n.pendingReads }, [])
        else
          let confirmed :=
            { acknowledged with confirmed := true, commitIndex := n.commitIndex }
          { n with pendingReads := insertRead confirmed n.pendingReads }.completeReads

/-! ## Replication -/

def sendAppendEntriesTo (n : Node) (peer : NodeID) (readID : ReadID) :
    Node × List Action :=
  if (n.appendInFlight peer).requestID ≠ 0 then (n, [])
  else
    let durableLastIndex := min n.durableLogIndex n.lastLogIndex
    let nextIndex :=
      if n.nextIndex peer = 0 ∨ n.nextIndex peer > durableLastIndex + 1
      then durableLastIndex + 1
      else n.nextIndex peer
    if nextIndex ≤ n.logBaseIndex then
      if n.snapshotInFlight peer ≠ 0 then (n, [])
      else
        let requestID := n.nextRequestID + 1
        ({ n with
            nextRequestID := requestID
            snapshotInFlight := Function.update n.snapshotInFlight peer requestID },
          [.sendInstallSnapshot peer n.term requestID n.logBaseIndex n.logBaseTerm 0])
    else
      let requestID := n.nextRequestID + 1
      ({ n with
          nextRequestID := requestID
          appendInFlight :=
            Function.update n.appendInFlight peer ⟨requestID, n.commitIndex⟩ },
        [.sendAppendEntries peer
          { sender := n.id
            term := n.term
            requestID := requestID
            prevLogIndex := nextIndex - 1
            prevLogTerm := n.termAt (nextIndex - 1)
            entries := n.entriesBatch nextIndex durableLastIndex
            leaderCommit := n.commitIndex
            readID := readID }])

/-- The peer loop of `sendAppendEntries`. -/
def sendToPeers (readID : ReadID) : List NodeID → Node → Node × List Action
  | [], n => (n, [])
  | peer :: peers, n =>
      let peerReadID := if readID = 0 then n.pendingReadFor peer else readID
      let sent := n.sendAppendEntriesTo peer peerReadID
      let others := sendToPeers readID peers sent.1
      (others.1, sent.2 ++ others.2)

def sendAppendEntries (n : Node) (readID : ReadID) : Node × List Action :=
  sendToPeers readID n.peers n

/-- The copies `advanceLeaderCommit` counts for a position, the Leader's included. -/
def replicated (n : Node) (index : Nat) : Nat :=
  1 + (n.peers.filter fun peer => n.matchIndex peer ≥ index).length

/-- The walk of `advanceLeaderCommit` down to the committed prefix. -/
def commitCandidate (n : Node) : Nat → Option Nat
  | 0 => none
  | index + 1 =>
      if index + 1 ≤ n.commitIndex then none
      else if n.termAt (index + 1) = n.term ∧ n.replicated (index + 1) ≥ n.quorum
      then some (index + 1)
      else commitCandidate n index

def advanceLeaderCommit (n : Node) : Node × Bool :=
  match n.commitCandidate n.lastLogIndex with
  | none => (n, false)
  | some index => ({ n with commitIndex := index }, true)

def advanceFollowerCommit (n : Node) (leaderCommit : Nat) (after : List Action) :
    Node × List Action :=
  let target := min leaderCommit n.lastLogIndex
  if target > n.commitIndex then
    { n with commitIndex := target }.persistCommit after
  else
    let applied := n.applyThrough n.durableCommitIndex
    (applied.1, applied.2 ++ after)

/-! ## Elections -/

def startElection (n : Node) : Node × List Action :=
  let n := { n with
    role := .candidate
    term := n.term + 1
    votedFor := n.id
    leaderID := []
    readReady := false
    votes := {n.id} }
  n.persistHardState
    (.resetElectionTimer :: n.peers.map fun peer =>
      .sendVoteRequest peer ⟨n.id, n.term, n.lastLogIndex, n.lastLogTerm⟩)

def startPreVote (n : Node) : Node × List Action :=
  if n.role = .leader then (n, [])
  else
    let n := { n with
      recentLeaderContact := false
      leaderID := []
      role := .preCandidate
      preVotes := {n.id} }
    let actions := .resetElectionTimer :: n.peers.map fun peer =>
      .sendPreVoteRequest peer ⟨n.id, n.term + 1, n.lastLogIndex, n.lastLogTerm⟩
    if n.quorum = 1 then
      let election := n.startElection
      (election.1, actions ++ election.2)
    else (n, actions)

def handlePreVoteRequest (n : Node) (request : PreVoteRequest) : Node × List Action :=
  let grant := decide (request.term ≥ n.term + 1) && !n.recentLeaderContact &&
    n.candidateLogIsUpToDate request.lastLogTerm request.lastLogIndex
  (n, [.sendPreVoteResponse request.sender ⟨n.id, request.term, n.term, grant⟩])

def handlePreVoteResponse (n : Node) (response : PreVoteResponse) :
    Node × List Action :=
  if response.currentTerm > n.term then
    (n.becomeFollower response.currentTerm []).persistHardState []
  else if n.role ≠ .preCandidate ∨ response.term ≠ n.term + 1 ∨
      response.granted = false then (n, [])
  else
    let n := { n with preVotes := insert response.sender n.preVotes }
    if n.preVotes.card < n.quorum then (n, []) else n.startElection

def handleVoteRequest (n : Node) (request : VoteRequest) : Node × List Action :=
  if request.term < n.term then (n, n.voteResponse request.sender false)
  else
    let termChanged := decide (request.term > n.term)
    let n := if termChanged then n.becomeFollower request.term [] else n
    let grant := (n.votedFor == [] || n.votedFor == request.sender) &&
      n.candidateLogIsUpToDate request.lastLogTerm request.lastLogIndex
    let n := if grant then { n with votedFor := request.sender } else n
    let response := n.voteResponse request.sender grant
    if termChanged || (grant && !n.voteIsDurable request.sender) then
      n.persistHardState response
    else (n, response)

/-- Winning an election: the new Leader's progress and its no-op. -/
def becomeLeader (n : Node) : Node × List Action :=
  let entry : LogEntry := { index := n.lastLogIndex + 1, term := n.term, type := .noOp }
  let n := { n with
    role := .leader
    leaderID := n.id
    activePeers := ∅
    matchIndex := fun _ => 0
    appendInFlight := fun _ => {}
    snapshotInFlight := fun _ => 0
    readReady := false }.appendEntries [entry]
  let n := { n with
    nextIndex := fun peer => if peer ∈ n.peers then n.lastLogIndex + 1 else 0 }
  let persisted := n.persistLog [entry]
    { purpose := .persistLeaderEntry, term := n.term, lastIndex := entry.index }
  (persisted.1,
    [.becameLeader n.term, .resetHeartbeatTimer, .resetCheckQuorumTimer] ++ persisted.2)

def handleVoteResponse (n : Node) (response : VoteResponse) : Node × List Action :=
  if response.term > n.term then
    (n.becomeFollower response.term []).persistHardState []
  else if n.role ≠ .candidate ∨ response.term ≠ n.term ∨
      response.granted = false then (n, [])
  else
    let n := { n with votes := insert response.sender n.votes }
    if n.votes.card < n.quorum then (n, []) else n.becomeLeader

/-! ## Proposals and reads -/

/-- The common body of the three proposal handlers, for an already built entry. -/
def proposeEntry (n : Node) (proposalID : ProposalID) (entry : LogEntry) :
    Node × List Action :=
  let n := n.appendEntries [entry]
  let persisted := n.persistLog [entry]
    { purpose := .persistLeaderEntry, term := n.term, lastIndex := entry.index }
  (persisted.1, .proposalAccepted proposalID entry.index :: persisted.2)

def proposeSession (n : Node) (proposal : ProposeSession) : Node × List Action :=
  if n.role ≠ .leader then (n, [.proposalRejected proposal.proposalID n.leaderID])
  else if proposal.type ≠ .openSession ∧ proposal.type ≠ .closeSession then (n, [])
  else n.proposeEntry proposal.proposalID
    { index := n.lastLogIndex + 1
      term := n.term
      type := proposal.type
      sessionID := proposal.sessionID }

def proposeSet (n : Node) (proposal : ProposeSet) : Node × List Action :=
  if n.role ≠ .leader then (n, [.proposalRejected proposal.proposalID n.leaderID])
  else n.proposeEntry proposal.proposalID
    { index := n.lastLogIndex + 1
      term := n.term
      type := .set
      sessionID := proposal.sessionID
      sequence := proposal.sequence
      key := proposal.key
      value := proposal.value }

def proposeDelete (n : Node) (proposal : ProposeDelete) : Node × List Action :=
  if n.role ≠ .leader then (n, [.proposalRejected proposal.proposalID n.leaderID])
  else n.proposeEntry proposal.proposalID
    { index := n.lastLogIndex + 1
      term := n.term
      type := .delete
      sessionID := proposal.sessionID
      sequence := proposal.sequence
      key := proposal.key }

def confirmRead (n : Node) (readID : ReadID) : Node × List Action :=
  if n.role ≠ .leader then (n, [.readRejected readID n.leaderID])
  else if n.readReady = false then (n, [.readRejected readID []])
  else
    let read : PendingRead := { id := readID, acknowledgements := {n.id} }
    { n with pendingReads := insertRead read n.pendingReads }.sendAppendEntries readID

def heartbeatRound (n : Node) : Node × List Action :=
  if n.role ≠ .leader then (n, [])
  else
    let sent := { n with appendInFlight := fun _ => {} }.sendAppendEntries 0
    (sent.1, .resetHeartbeatTimer :: sent.2)

def checkQuorum (n : Node) : Node × List Action :=
  if n.role ≠ .leader then (n, [])
  else if n.activePeers.card + 1 < n.quorum then
    (n.becomeFollower n.term [], [.resetElectionTimer, .lostLeadership n.term])
  else ({ n with activePeers := ∅ }, [.resetCheckQuorumTimer])

/-! ## Append traffic -/

/-- The acceptance half of `handleAppendEntries`, once the previous position matched. -/
def acceptEntries (n : Node) (request : AppendEntries) (newEntries : List LogEntry)
    (truncateFrom : Nat) : Node × List Action :=
  if newEntries ≠ [] then
    let n := if truncateFrom ≠ 0 then n.truncateLog truncateFrom else n
    let n := n.appendEntries newEntries
    n.persistLog newEntries
      { purpose := .persistFollowerAppend
        term := request.term
        leader := request.sender
        truncateFrom := truncateFrom
        lastIndex := n.lastLogIndex
        leaderCommit := request.leaderCommit
        readID := request.readID
        requestID := request.requestID }
  else if n.lastLogIndex > n.durableLogIndex then (n, [])
  else n.advanceFollowerCommit request.leaderCommit
    (n.appendEntriesResponse request.sender request.requestID true n.lastLogIndex 0 0
      request.readID)

/-- The refusal of `handleAppendEntries`, hinting at the conflict around `index`. -/
def rejectEntries (n : Node) (request : AppendEntries) (index : Nat) : List Action :=
  n.appendEntriesResponse request.sender request.requestID false n.lastLogIndex
    (n.conflictHint index).1 (n.conflictHint index).2 request.readID

/-- `handleAppendEntries` once the Leader is recognized. -/
def answerEntries (n : Node) (request : AppendEntries) : Node × List Action :=
  if n.matchesAt request.prevLogIndex request.prevLogTerm = false then
    (n, n.rejectEntries request request.prevLogIndex)
  else
    match n.entriesToAppend request.prevLogIndex request.entries with
    | none => (n, n.rejectEntries request (request.prevLogIndex + 1))
    | some (newEntries, truncateFrom) => n.acceptEntries request newEntries truncateFrom

def handleAppendEntries (n : Node) (request : AppendEntries) : Node × List Action :=
  if request.term < n.term then
    (n, n.appendEntriesResponse request.sender request.requestID false n.lastLogIndex
      0 0 request.readID)
  else
    let termChanged := decide (request.term > n.term)
    let answered := (n.recognizeLeader request.term request.sender).answerEntries request
    answered.1.afterTermChange termChanged (.resetElectionTimer :: answered.2)

/-- What a Leader learns about a peer from its response. -/
def recordResponse (n : Node) (response : AppendEntriesResponse) : Node :=
  if response.success then
    let matched := max (n.matchIndex response.sender) response.matchIndex
    { n with
      appendInFlight := Function.update n.appendInFlight response.sender {}
      activePeers := insert response.sender n.activePeers
      matchIndex := Function.update n.matchIndex response.sender matched
      nextIndex := Function.update n.nextIndex response.sender (matched + 1) }
  else
    { n with
      appendInFlight := Function.update n.appendInFlight response.sender {}
      activePeers := insert response.sender n.activePeers
      nextIndex := Function.update n.nextIndex response.sender
        (n.nextIndexFromConflict response) }

/-- Commit what a quorum holds, or send the peer what it still lacks. -/
def continueReplication (n : Node) (response : AppendEntriesResponse) (leaderCommit : Nat) :
    Node × List Action :=
  let advanced := n.advanceLeaderCommit
  if advanced.2 then
    let broadcast := advanced.1.sendAppendEntries 0
    broadcast.1.persistCommit broadcast.2
  else
    let readID := n.pendingReadFor response.sender
    if response.success = false ∨
        n.nextIndex response.sender ≤ min n.durableLogIndex n.lastLogIndex ∨
        readID ≠ 0 ∨ leaderCommit < n.commitIndex then
      n.sendAppendEntriesTo response.sender readID
    else (n, [])

def handleAppendEntriesResponse (n : Node) (response : AppendEntriesResponse) :
    Node × List Action :=
  if response.term > n.term then
    (n.becomeFollower response.term []).persistHardState []
  else if n.role ≠ .leader ∨ response.term ≠ n.term then (n, [])
  else
    let pending := n.appendInFlight response.sender
    if pending.requestID ≠ 0 ∧ response.requestID ≠ 0 ∧
        response.requestID ≠ pending.requestID then (n, [])
    else
      let sent := (n.recordResponse response).continueReplication response pending.leaderCommit
      let acknowledged := sent.1.acknowledgeRead response
      (acknowledged.1, sent.2 ++ acknowledged.2)

def handleAppendEntriesFailed (n : Node) (dest : NodeID) (requestID : Nat) :
    Node × List Action :=
  let n :=
    if (n.appendInFlight dest).requestID = requestID then
      { n with appendInFlight := Function.update n.appendInFlight dest {} }
    else n
  let n :=
    if n.snapshotInFlight dest = requestID then
      { n with snapshotInFlight := Function.update n.snapshotInFlight dest 0 }
    else n
  (n, [])

/-! ## Snapshot transfer -/

/-- `handleInstallSnapshot` once the Leader is recognized. -/
def answerSnapshot (n : Node) (request : InstallSnapshot) : Node × List Action :=
  if request.success = true ∧ request.done = true ∧
      request.snapshotIndex > n.logBaseIndex then
    let retainSuffix := decide (request.snapshotIndex ≤ n.lastLogIndex) &&
      n.termAt request.snapshotIndex == request.snapshotTerm
    n.persistSnapshot request retainSuffix
  else
    let alreadyInstalled := request.success && request.done &&
      decide (request.snapshotIndex ≤ n.logBaseIndex)
    (n, n.snapshotResponse request request.success request.nextOffset alreadyInstalled)

def handleInstallSnapshot (n : Node) (request : InstallSnapshot) : Node × List Action :=
  if request.term < n.term then
    (n, n.snapshotResponse request false request.offset false)
  else
    let termChanged := decide (request.term > n.term)
    let answered := (n.recognizeLeader request.term request.sender).answerSnapshot request
    answered.1.afterTermChange termChanged (.resetElectionTimer :: answered.2)

/-- The log surgery of `snapshotPersisted`. -/
def installSnapshot (n : Node) (request : InstallSnapshot) (retainSuffix : Bool) : Node :=
  let n :=
    if retainSuffix then
      { n with log := n.log.dropWhile fun entry => entry.index ≤ request.snapshotIndex }
    else
      { n with
        log := []
        lastLogIndex := request.snapshotIndex
        lastLogTerm := request.snapshotTerm
        durableLogIndex := request.snapshotIndex }
  let n := { n with
    logBaseIndex := request.snapshotIndex
    logBaseTerm := request.snapshotTerm
    commitIndex := max n.commitIndex request.snapshotIndex
    durableCommitIndex := max n.durableCommitIndex request.snapshotIndex
    lastApplied := request.snapshotIndex }
  match n.log.getLast? with
  | none => n
  | some last =>
      { n with
        lastLogIndex := last.index
        lastLogTerm := last.term
        durableLogIndex := last.index }

def completeSnapshot (n : Node) (pending : PendingSnapshotPersistence) :
    Node × List Action :=
  let n := n.installSnapshot pending.request pending.retainSuffix
  (n, .restoreSnapshot pending.request.snapshotIndex pending.request.snapshotTerm ::
    n.snapshotResponse pending.request pending.request.success
      pending.request.nextOffset true)

def snapshotPersisted (n : Node) (persistenceID : Nat) : Node × List Action :=
  match n.pendingSnapshot persistenceID with
  | none => (n, [])
  | some pending =>
      { n with
        pendingSnapshot := Function.update n.pendingSnapshot persistenceID none }.completeSnapshot
          pending

def handleInstallSnapshotResponse (n : Node) (response : InstallSnapshotResponse) :
    Node × List Action :=
  if response.term > n.term then
    (n.becomeFollower response.term []).persistHardState []
  else if n.role ≠ .leader ∨ response.term ≠ n.term ∨
      n.snapshotInFlight response.sender ≠ response.requestID then (n, [])
  else if response.success = false then
    ({ n with
        snapshotInFlight := Function.update n.snapshotInFlight response.sender 0 }, [])
  else if response.done = false then
    (n, [.sendInstallSnapshot response.sender n.term response.requestID
      n.logBaseIndex n.logBaseTerm response.nextOffset])
  else
    let n := { n with
      snapshotInFlight := Function.update n.snapshotInFlight response.sender 0
      matchIndex := Function.update n.matchIndex response.sender
        (max (n.matchIndex response.sender) response.snapshotIndex)
      nextIndex := Function.update n.nextIndex response.sender
        (response.snapshotIndex + 1) }
    n.sendAppendEntriesTo response.sender (n.pendingReadFor response.sender)

/-! ## Durability completions -/

def completeHardState (n : Node) (pending : PendingHardStatePersistence) :
    Node × List Action :=
  let n := { n with
    durableTerm := pending.term
    durableVotedFor := pending.votedFor }
  if pending.term ≠ n.term ∨ pending.votedFor ≠ n.votedFor then (n, [])
  else (n, pending.after)

def hardStatePersisted (n : Node) (persistenceID : Nat) : Node × List Action :=
  match n.pendingHardState persistenceID with
  | none => (n, [])
  | some pending =>
      { n with
        pendingHardState :=
          Function.update n.pendingHardState persistenceID none }.completeHardState pending

def completeLog (n : Node) (pending : PendingLogPersistence) : Node × List Action :=
  let n := { n with durableLogIndex := max n.durableLogIndex pending.lastIndex }
  match pending.purpose with
  | .persistLeaderEntry =>
      if n.role ≠ .leader ∨ n.term ≠ pending.term ∨
          n.lastLogIndex < pending.lastIndex then (n, [])
      else n.sendAppendEntries 0
  | .persistFollowerAppend =>
      if n.term ≠ pending.term ∨ n.role ≠ .follower ∨
          n.leaderID ≠ pending.leader then (n, [])
      else n.advanceFollowerCommit pending.leaderCommit
        (n.appendEntriesResponse pending.leader pending.requestID true
          pending.lastIndex 0 0 pending.readID)

def logEntriesPersisted (n : Node) (persistenceID : Nat) : Node × List Action :=
  match n.pendingLog persistenceID with
  | none => (n, [])
  | some pending =>
      { n with pendingLog := Function.update n.pendingLog persistenceID none }.completeLog
        pending

def completeCommit (n : Node) (pending : PendingCommitPersistence) : Node × List Action :=
  let n := { n with
    durableCommitIndex := max n.durableCommitIndex pending.commitIndex }
  let applied := n.applyThrough pending.commitIndex
  (applied.1, applied.2 ++ pending.after)

def commitIndexPersisted (n : Node) (persistenceID : Nat) : Node × List Action :=
  match n.pendingCommit persistenceID with
  | none => (n, [])
  | some pending =>
      { n with
        pendingCommit := Function.update n.pendingCommit persistenceID none }.completeCommit
          pending

/-- Apply one event and return its actions in execution order. -/
def step (n : Node) : Event → Node × List Action
  | .electionTimeout => n.startPreVote
  | .heartbeatTimeout => n.heartbeatRound
  | .checkQuorumTimeout => n.checkQuorum
  | .hardStatePersisted id => n.hardStatePersisted id
  | .logEntriesPersisted id => n.logEntriesPersisted id
  | .commitIndexPersisted id => n.commitIndexPersisted id
  | .snapshotPersisted id => n.snapshotPersisted id
  | .recoverCommitted => n.applyThrough n.durableCommitIndex
  | .snapshotCompacted index term => (n.compactLog index term, [])
  | .proposeSession proposal => n.proposeSession proposal
  | .proposeSet proposal => n.proposeSet proposal
  | .proposeDelete proposal => n.proposeDelete proposal
  | .confirmRead readID => n.confirmRead readID
  | .preVoteRequest request => n.handlePreVoteRequest request
  | .preVoteResponse response => n.handlePreVoteResponse response
  | .voteRequest request => n.handleVoteRequest request
  | .voteResponse response => n.handleVoteResponse response
  | .appendEntries request => n.handleAppendEntries request
  | .appendEntriesResponse response => n.handleAppendEntriesResponse response
  | .appendEntriesFailed dest requestID => n.handleAppendEntriesFailed dest requestID
  | .installSnapshot request => n.handleInstallSnapshot request
  | .installSnapshotResponse response => n.handleInstallSnapshotResponse response

end Node

end QuorumKV.Raft
