import QuorumKV.Runtime.Loop

/-!
# Serving events, crashing, and starting again

One turn of `runRaft` on a server, the turn cut short by a crash, the local
Snapshot of `startSnapshot`, and `openRaftRuntime` with the start of the loop.
A refused write or an error of an action ends the loop; the server then keeps
its disk and files and has no process.
-/

namespace QuorumKV.Runtime

open Raft Session

/-- A client's proposal, as the handlers of the client service build it. -/
inductive Proposal where
  | session (proposal : ProposeSession)
  | set (proposal : ProposeSet)
  | delete (proposal : ProposeDelete)

def Proposal.event : Proposal → Event
  | .session proposal => .proposeSession proposal
  | .set proposal => .proposeSet proposal
  | .delete proposal => .proposeDelete proposal

def requested : Event → Option Request
  | .proposeSession proposal => some (.session proposal.type proposal.sessionID)
  | .proposeSet proposal => some (.mutation proposal.sessionID proposal.sequence)
  | .proposeDelete proposal => some (.mutation proposal.sessionID proposal.sequence)
  | _ => none

def proposedMutation (event : Event) : Option (SessionID × UInt64) :=
  (requested event).bind Request.mutation?

def Proposal.request : Proposal → Request
  | .session proposal => .session proposal.type proposal.sessionID
  | .set proposal => .mutation proposal.sessionID proposal.sequence
  | .delete proposal => .mutation proposal.sessionID proposal.sequence

/-- What the loop selects: a timer, a client, a peer's message, or a failed delivery. -/
inductive Input where
  | electionTimeout
  | heartbeatTimeout
  | checkQuorumTimeout
  | propose (client : Nat) (proposal : Proposal)
  | read (readID : ReadID) (key : Bytes)
  | receive (message : Message)
  | deliveryFailed (dest : NodeID) (requestID : Nat)

/-! ## Before the step -/

def Chunk.request (chunk : Chunk) (success : Bool) (nextOffset : Nat) : InstallSnapshot :=
  { sender := chunk.sender
    term := chunk.term
    requestID := chunk.requestID
    snapshotIndex := chunk.file.includedIndex
    snapshotTerm := chunk.file.includedTerm
    offset := chunk.offset
    done := chunk.done
    success := success
    nextOffset := nextOffset }

/-- Stage a chunk: the process, the file saved when it was the last, and the request. -/
def stageChunk (config : Config) (id : NodeID) (process : Process) (chunk : Chunk) :
    Process × List Snapshot.State × InstallSnapshot :=
  let length := config.fileLength chunk.file
  let incoming := if chunk.offset = 0 then some ⟨chunk.file, 0⟩ else process.incoming
  match incoming with
  | none => ({ process with incoming := none }, [], chunk.request false 0)
  | some receiving =>
      if receiving.file ≠ chunk.file ∨ chunk.offset ≠ receiving.staged ∨
          chunk.offset + chunk.size > length then
        ({ process with incoming := some receiving }, [], chunk.request false 0)
      else
        let staged := receiving.staged + chunk.size
        if chunk.done = false then
          ({ process with incoming := some ⟨chunk.file, staged⟩ }, [],
            chunk.request true staged)
        else if staged = length ∧
            snapshotClusterMatches chunk.file.identity (snapshotIdentity config id) then
          let file := { chunk.file with identity := snapshotIdentity config id }
          ({ process with incoming := none, readySnapshot := some file }, [file],
            chunk.request true staged)
        else ({ process with incoming := none }, [], chunk.request false 0)

/-- A turn either answers at once or steps the runtime with an event. -/
inductive Prepared where
  | answered (process : Process) (observed : List Observation)
  | stepped (process : Process) (saved : List Snapshot.State) (event : Event)
      (waiter : Option Waiter)

/-- A mutation joins the same one in flight, or is answered from the session machine. -/
def prepareProposal (id : NodeID) (since : Nat) (process : Process) (client : Nat)
    (proposal : Proposal) : Prepared :=
  let waiter : Waiter := ⟨client, proposal.request, since⟩
  match proposedMutation proposal.event with
  | none => .stepped process [] proposal.event (some waiter)
  | some (session, sequence) =>
      let joined := (process.inFlightMutations session).bind fun mutation =>
        if mutation.1 = sequence then some mutation.2 else none
      match joined with
      | some index =>
          .answered { process with pending := process.pending ++ [(index, waiter)] } []
      | none =>
          let evaluated := process.sessions.evaluateMutation session sequence
          if evaluated.2 = false then
            .answered process [.answered id waiter evaluated.1]
          else .stepped process [] proposal.event (some waiter)

def Message.prepare (config : Config) (id : NodeID) (process : Process) : Message → Prepared
  | .preVoteRequest request => .stepped process [] (.preVoteRequest request) none
  | .preVoteResponse response => .stepped process [] (.preVoteResponse response) none
  | .voteRequest request => .stepped process [] (.voteRequest request) none
  | .voteResponse response => .stepped process [] (.voteResponse response) none
  | .appendEntries request => .stepped process [] (.appendEntries request) none
  | .appendEntriesResponse response =>
      .stepped process [] (.appendEntriesResponse response) none
  | .installSnapshotResponse response =>
      .stepped process [] (.installSnapshotResponse response) none
  | .installSnapshot chunk =>
      let staged := stageChunk config id process chunk
      .stepped staged.1 staged.2.1 (.installSnapshot staged.2.2) none

/--
The loop before it steps the runtime, `since` being how much has been shown.
Read identifiers count up from one, so none is zero or used twice by a process.
-/
def prepare (config : Config) (id : NodeID) (since : Nat) (process : Process) :
    Input → Option Prepared
  | .electionTimeout => some (.stepped process [] .electionTimeout none)
  | .heartbeatTimeout => some (.stepped process [] .heartbeatTimeout none)
  | .checkQuorumTimeout => some (.stepped process [] .checkQuorumTimeout none)
  | .propose client proposal => some (prepareProposal id since process client proposal)
  | .read readID key =>
      if readID = 0 ∨ readID ∈ process.readsBegun.map Prod.fst then none
      else
        some (.stepped { process with
          pendingReads := process.pendingReads ++ [(readID, key)]
          readsBegun := process.readsBegun ++ [(readID, since)] } [] (.confirmRead readID) none)
  | .receive message => some (message.prepare config id process)
  | .deliveryFailed dest requestID =>
      if requestID = 0 then none
      else some (.stepped process [] (.appendEntriesFailed dest requestID) none)

/-! ## A turn of the loop -/

/-- What a turn does to its server and to the world outside. -/
structure Turn where
  server : Server
  sent : List Packet := []
  observed : List Observation := []

def entered (id : NodeID) (core : Node) (event : Event) : List Observation :=
  if core.role ≠ .leader ∧ (core.step event).1.role = .leader then
    [.becameLeader id (core.step event).1.term]
  else []

namespace Server

def serve (config : Config) (id : NodeID) (since : Nat) (server : Server) (input : Input) :
    Option Turn :=
  match server.process with
  | none => none
  | some process =>
      match prepare config id since process input with
      | none => none
      | some (.answered process observed) =>
          some { server := { server with process := some process }, observed := observed }
      | some (.stepped process saved event waiter) =>
          let files := saved ++ server.files
          let shown := entered id process.core event
          match Runtime.step process.core server.disk event with
          | .exhausted => none
          | .refused progress =>
              some { server := { disk := progress.disk, files := files }, observed := shown }
          | .completed progress =>
              let state : LoopState :=
                { process := { process with core := progress.core }, waiter := waiter }
              match carryOutAll config id files state progress.emitted with
              | none =>
                  some { server := { disk := progress.disk, files := files }, observed := shown }
              | some state =>
                  let state := afterActions id (process.core.role = .leader) state
                  some { server := { disk := progress.disk, files, process := state.process }
                         sent := state.sent
                         observed := shown ++ state.observed }

/-- The same turn when the process crashes in it, after `calls` writes. -/
def crashDuring (config : Config) (id : NodeID) (since : Nat) (server : Server)
    (input : Input) (calls kept : Nat) : Option Turn :=
  match server.process with
  | none => none
  | some process =>
      match prepare config id since process input with
      | some (.stepped process saved event _) =>
          let writes := (Runtime.step process.core server.disk event).writes
          some { server := { disk := crashed server.disk kept calls writes
                             files := saved ++ server.files }
                 observed := entered id process.core event }
      | _ => none

/-! ## Local Snapshots -/

/-- `startSnapshot`. -/
def capture (config : Config) (id : NodeID) (server : Server) : Option Server :=
  match server.process with
  | none => none
  | some process =>
      if process.capture.isSome then none
      else
        let state := process.sessions.snapshot (snapshotIdentity config id)
          process.core.lastApplied process.core.lastAppliedTerm
        some { server with
          process := some { process with capture := some { state := state } } }

/-- The next step of `installSnapshot`: save the file, then compact the WAL. -/
def advanceCapture (server : Server) : Option Server :=
  match server.process with
  | none => none
  | some process =>
      match process.capture with
      | none => none
      | some ⟨state, .captured⟩ =>
          some { server with
            files := state :: server.files
            process := some { process with capture := some ⟨state, .saved⟩ } }
      | some ⟨state, .saved⟩ =>
          let disk :=
            if state.includedIndex = 0 then some server.disk
            else Disk.compact server.disk state.includedIndex state.includedTerm
          disk.map fun disk =>
            { server with
              disk := disk
              process := some { process with capture := some ⟨state, .compacted⟩ } }
      | some ⟨state, .compacted⟩ =>
          let event : Event := .snapshotCompacted state.includedIndex state.includedTerm
          some { server with
            process := some { process with
              core := (process.core.step event).1
              capture := none } }

def abandonCapture (server : Server) : Option Server :=
  server.process.map fun process =>
    { server with process := some { process with capture := none } }

def cancel (server : Server) (client : Nat) : Option Server :=
  server.process.map fun process =>
    { server with
      process := some { process with
        pending := process.pending.filter fun waiting => waiting.2.client ≠ client } }

def cancelRead (server : Server) (readID : ReadID) : Option Server :=
  server.process.map fun process =>
    { server with
      process := some { process with
        pendingReads := process.pendingReads.filter fun waiting => waiting.1 ≠ readID } }

/-! ## Start -/

end Server

def matchesWAL (disk : Disk) (file : Snapshot.State) : Bool :=
  if file.includedIndex > disk.commitIndex then false
  else if file.includedIndex = 0 then file.includedTerm == 0
  else if file.includedIndex = disk.snapshotIndex then
    file.includedTerm == disk.snapshotTerm
  else if file.includedIndex < disk.snapshotIndex + 1 then false
  else
    match disk.log[file.includedIndex - (disk.snapshotIndex + 1)]? with
    | none => false
    | some entry => entry.term == file.includedTerm

/-- The newest of the files by position, the later one of a tie. -/
def newest : List Snapshot.State → Option Snapshot.State
  | [] => none
  | file :: files =>
      match newest files with
      | none => some file
      | some other =>
          if file.includedIndex > other.includedIndex ∨
              (file.includedIndex = other.includedIndex ∧
                file.includedTerm ≥ other.includedTerm) then some file
          else some other

/-- `LoadNewest`, `none` when it returns an error. -/
def loadNewest (identity : Snapshot.Identity) (disk : Disk) (files : List Snapshot.State) :
    Option (Option Snapshot.State) :=
  let required := files.any fun file =>
    file.includedIndex == disk.snapshotIndex && file.includedTerm == disk.snapshotTerm
  if disk.snapshotIndex > 0 ∧ required = false then none
  else if files.any fun file => file.identity ≠ identity then none
  else
    let found := newest (files.filter (matchesWAL disk))
    if disk.snapshotIndex > 0 ∧ found = none then none else some found

/-- `openRaftRuntime`: the core and the Snapshot it starts from. -/
def openRaftRuntime (config : Config) (id : NodeID) (server : Server) :
    Option (Node × Option Snapshot.State) :=
  match loadNewest (snapshotIdentity config id) server.disk server.files with
  | none => none
  | some found =>
      let index := found.elim 0 Snapshot.State.includedIndex
      let recovered : RecoveredState :=
        { hardState := server.disk.hardState
          log := server.disk.log.dropWhile fun entry => entry.index ≤ index
          commitIndex := server.disk.commitIndex
          snapshotIndex := index
          snapshotTerm := found.elim 0 Snapshot.State.includedTerm }
      some (newNodeFromRecoveredState id (config.peers id) recovered, found)

/-- Apply the committed entries of the log; any other action is an error. -/
def recoverEntries (sessions : SessionMachine) : List Action → Option SessionMachine
  | [] => some sessions
  | .applyEntry entry :: actions => recoverEntries (sessions.apply entry).1 actions
  | _ :: _ => none

def recoveredEntries (id : NodeID) : List Action → List Observation
  | .applyEntry entry :: actions => .applied id entry :: recoveredEntries id actions
  | _ => []

namespace Server

/-- Open the runtime, restore the session machine, and recover what is committed. -/
def start (config : Config) (id : NodeID) (server : Server) : Option Turn :=
  if server.process.isSome then none
  else
    match openRaftRuntime config id server with
    | none => none
    | some (core, found) =>
        match (newSessionMachine config.activeSessionLimit).restore found with
        | .error _ => none
        | .ok sessions =>
            match Runtime.step core server.disk .recoverCommitted with
            | .completed progress =>
                match recoverEntries sessions progress.emitted with
                | none => none
                | some sessions =>
                    let process : Process := { core := progress.core, sessions := sessions }
                    some { server := { server with disk := progress.disk, process := process }
                           observed := recoveredEntries id progress.emitted }
            | _ => none

end Server

/-! ## How a turn goes -/

inductive Input.Answered (id : NodeID) (since : Nat) (p : Process) :
    Input → Process → List Observation → Prop where
  | joined {client : Nat} {proposal : Proposal} {session : SessionID} {sequence : UInt64}
      {index : Nat} (request : proposal.request = .mutation session sequence)
      (flight : p.inFlightMutations session = some (sequence, index)) :
      Input.Answered id since p (.propose client proposal)
        { p with pending := p.pending ++ [(index, ⟨client, proposal.request, since⟩)] } []
  | evaluated {client : Nat} {proposal : Proposal} {session : SessionID} {sequence : UInt64}
      (request : proposal.request = .mutation session sequence)
      (decided : (p.sessions.evaluateMutation session sequence).2 = false) :
      Input.Answered id since p (.propose client proposal) p
        [.answered id ⟨client, proposal.request, since⟩
          (p.sessions.evaluateMutation session sequence).1]

inductive Input.Stepped (config : Config) (id : NodeID) (since : Nat) (p : Process) :
    Input → Process → List Snapshot.State → Event → Option Waiter → Prop where
  | electionTimeout : Input.Stepped config id since p .electionTimeout p [] .electionTimeout none
  | heartbeatTimeout :
      Input.Stepped config id since p .heartbeatTimeout p [] .heartbeatTimeout none
  | checkQuorumTimeout :
      Input.Stepped config id since p .checkQuorumTimeout p [] .checkQuorumTimeout none
  | propose {client : Nat} {proposal : Proposal} :
      Input.Stepped config id since p (.propose client proposal) p [] proposal.event
        (some ⟨client, proposal.request, since⟩)
  | read {readID : ReadID} {key : Bytes} (positive : readID ≠ 0)
      (fresh : readID ∉ p.readsBegun.map Prod.fst) :
      Input.Stepped config id since p (.read readID key)
        { p with
          pendingReads := p.pendingReads ++ [(readID, key)]
          readsBegun := p.readsBegun ++ [(readID, since)] } [] (.confirmRead readID) none
  | receive {message : Message} {incoming : Option Incoming} {ready : Option Snapshot.State}
      {saved : List Snapshot.State} {event : Event}
      (prepared : message.prepare config id p =
        .stepped { p with incoming := incoming, readySnapshot := ready } saved event none) :
      Input.Stepped config id since p (.receive message)
        { p with incoming := incoming, readySnapshot := ready } saved event none
  | deliveryFailed {dest : NodeID} {requestID : Nat} :
      Input.Stepped config id since p (.deliveryFailed dest requestID) p []
        (.appendEntriesFailed dest requestID) none

section Turns

variable {config : Config} {id : NodeID} {since : Nat} {p p' : Process} {input : Input}
  {saved : List Snapshot.State} {event : Event} {waiter : Option Waiter}
  {observed : List Observation} {server : Server} {turn : Turn}

theorem Message.prepare_eq (config : Config) (id : NodeID) (p : Process) (message : Message) :
    ∃ incoming ready saved event, message.prepare config id p =
      .stepped { p with incoming := incoming, readySnapshot := ready } saved event none := by
  cases message with
  | installSnapshot chunk =>
      simp only [Message.prepare, stageChunk]
      repeat' split
      all_goals exact ⟨_, _, _, _, rfl⟩
  | _ => exact ⟨p.incoming, p.readySnapshot, _, _, rfl⟩

theorem prepareProposal_cases (id : NodeID) (since : Nat) (p : Process) (client : Nat)
    (proposal : Proposal) :
    (∃ p' observed, prepareProposal id since p client proposal = .answered p' observed ∧
      Input.Answered id since p (.propose client proposal) p' observed) ∨
    prepareProposal id since p client proposal =
      .stepped p [] proposal.event (some ⟨client, proposal.request, since⟩) := by
  unfold prepareProposal
  dsimp only
  split
  · exact .inr rfl
  next session sequence hproposed =>
    have hrequest : proposal.request = .mutation session sequence := by
      cases proposal <;> simp_all [proposedMutation, requested, Proposal.event,
        Proposal.request, Request.mutation?]
    split
    next index hjoined =>
      refine .inl ⟨_, _, rfl, .joined hrequest ?_⟩
      obtain ⟨⟨number, position⟩, hflight, hsame⟩ := Option.bind_eq_some_iff.mp hjoined
      split at hsame
      next hnumber =>
        cases hsame
        rw [hflight, ← hnumber]
      · simp at hsame
    · split
      next hdecided => exact .inl ⟨_, _, rfl, .evaluated hrequest hdecided⟩
      · exact .inr rfl

theorem prepare_answered (h : prepare config id since p input = some (.answered p' observed)) :
    input.Answered id since p p' observed := by
  cases input with
  | propose client proposal =>
      rcases prepareProposal_cases id since p client proposal with
        ⟨q, shown, heq, hanswered⟩ | heq <;> simp only [prepare, heq] at h <;> cases h
      exact hanswered
  | read _ _ | deliveryFailed _ _ =>
      simp only [prepare] at h
      split at h <;> simp at h
  | receive message =>
      obtain ⟨_, _, _, _, heq⟩ := message.prepare_eq config id p
      simp [prepare, heq] at h
  | _ => simp [prepare] at h

theorem prepare_stepped
    (h : prepare config id since p input = some (.stepped p' saved event waiter)) :
    input.Stepped config id since p p' saved event waiter := by
  cases input with
  | electionTimeout =>
      cases h
      exact .electionTimeout
  | heartbeatTimeout =>
      cases h
      exact .heartbeatTimeout
  | checkQuorumTimeout =>
      cases h
      exact .checkQuorumTimeout
  | propose client proposal =>
      rcases prepareProposal_cases id since p client proposal with
        ⟨q, shown, heq, -⟩ | heq <;> simp only [prepare, heq] at h <;> cases h
      exact .propose
  | read readID key =>
      simp only [prepare] at h
      split at h
      · simp at h
      next hnew =>
        rw [not_or] at hnew
        cases h
        exact .read hnew.1 hnew.2
  | receive message =>
      obtain ⟨incoming, ready, files, event', heq⟩ := message.prepare_eq config id p
      simp only [prepare, heq] at h
      cases h
      exact .receive heq
  | deliveryFailed dest requestID =>
      simp only [prepare] at h
      split at h
      · simp at h
      · cases h
        exact .deliveryFailed

theorem Input.Answered.core_eq (h : input.Answered id since p p' observed) :
    p'.core = p.core := by
  cases h <;> rfl

theorem Input.Stepped.core_eq (h : input.Stepped config id since p p' saved event waiter) :
    p'.core = p.core := by
  cases h <;> rfl

namespace Server

/-- A turn of a running loop: answered at once, ended by an error, or carried out. -/
inductive Served (config : Config) (id : NodeID) (since : Nat) (server : Server) (p : Process)
    (input : Input) : Turn → Prop where
  | answered {p' : Process} {observed : List Observation}
      (prepared : prepare config id since p input = some (.answered p' observed)) :
      Served config id since server p input
        { server := { server with process := some p' }, observed := observed }
  | ended {p' : Process} {saved : List Snapshot.State} {event : Event} {waiter : Option Waiter}
      {disk : Disk}
      (prepared : prepare config id since p input = some (.stepped p' saved event waiter)) :
      Served config id since server p input
        { server := { disk := disk, files := saved ++ server.files }
          observed := entered id p'.core event }
  | finished {p' : Process} {saved : List Snapshot.State} {event : Event}
      {waiter : Option Waiter} {progress : Progress} {state : LoopState}
      (prepared : prepare config id since p input = some (.stepped p' saved event waiter))
      (stepped : Runtime.step p'.core server.disk event = .completed progress)
      (carried : carryOutAll config id (saved ++ server.files)
        { process := { p' with core := progress.core }, waiter := waiter } progress.emitted =
          some state) :
      Served config id since server p input
        { server :=
            { disk := progress.disk
              files := saved ++ server.files
              process := (afterActions id (p'.core.role = .leader) state).process }
          sent := (afterActions id (p'.core.role = .leader) state).sent
          observed := entered id p'.core event ++
            (afterActions id (p'.core.role = .leader) state).observed }

theorem serve_served (h : server.serve config id since input = some turn) :
    ∃ p, server.process = some p ∧ Served config id since server p input turn := by
  unfold serve at h
  split at h
  · simp at h
  next p hp =>
    refine ⟨p, hp, ?_⟩
    split at h
    · simp at h
    next hprepare =>
      cases h
      exact .answered hprepare
    next hprepare =>
      dsimp only at h
      split at h
      · simp at h
      · cases h
        exact .ended hprepare
      next hstep =>
        split at h <;> cases h
        · exact .ended hprepare
        next hcarried => exact .finished hprepare hstep hcarried

theorem start_ok (h : server.start config id = some turn) :
    ∃ core found restored sessions progress,
      openRaftRuntime config id server = some (core, found) ∧
      (newSessionMachine config.activeSessionLimit).restore found = .ok restored ∧
      Runtime.step core server.disk .recoverCommitted = .completed progress ∧
      recoverEntries restored progress.emitted = some sessions ∧
      turn =
        { server :=
            { server with
              disk := progress.disk
              process := some { core := progress.core, sessions := sessions } }
          observed := recoveredEntries id progress.emitted } := by
  unfold start at h
  split at h
  · simp at h
  · split at h
    · simp at h
    next hopen =>
      split at h
      · simp at h
      next hrestore =>
        split at h
        next hstep =>
          split at h
          · simp at h
          next hrecover =>
            exact ⟨_, _, _, _, _, hopen, hrestore, hstep, hrecover, (Option.some.inj h).symm⟩
        · simp at h

theorem capture_process {server' : Server}
    (h : server.capture config id = some server' ∨ server.advanceCapture = some server' ∨
      server.abandonCapture = some server') :
    ∃ p core capture, server.process = some p ∧
      server'.process = some { p with core := core, capture := capture } ∧
      (core = p.core ∨ ∃ index term, core = p.core.compactLog index term) := by
  rcases h with h | h | h
  · unfold Server.capture at h
    split at h
    · simp at h
    next p hp =>
      split at h <;> cases h
      exact ⟨p, p.core, _, hp, rfl, .inl rfl⟩
  · unfold advanceCapture at h
    split at h
    · simp at h
    next p hp =>
      split at h
      · simp at h
      · cases h
        exact ⟨p, p.core, _, hp, rfl, .inl rfl⟩
      · obtain ⟨disk, -, rfl⟩ := Option.map_eq_some_iff.mp h
        exact ⟨p, p.core, _, hp, rfl, .inl rfl⟩
      · cases h
        exact ⟨p, _, _, hp, rfl, .inr ⟨_, _, rfl⟩⟩
  · obtain ⟨p, hp, rfl⟩ := Option.map_eq_some_iff.mp h
    exact ⟨p, p.core, _, hp, rfl, .inl rfl⟩

end Server

end Turns

end QuorumKV.Runtime
