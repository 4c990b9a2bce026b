import QuorumKV.Raft.Signed
import QuorumKV.Snapshot.Transfer

/-!
# The wire adapter

`encodeRaftAction` and `decodeRaftMessage` of `internal/node/peer.go`, over the
message types of `node.proto`.  Marshalling a message is taken to be the identity,
and a missing byte field is an empty one.  A Snapshot chunk is composed by
`sendSnapshot` instead, from the file the action names; the core never sees its
bytes, so it decodes to the request before staging.
-/

namespace QuorumKV.Wire

open QuorumKV.Raft (Bytes NodeID SessionID LogEntry EntryType Action Event)
open QuorumKV.Runtime (Config)
open QuorumKV.Snapshot (StateJSON SnapshotFile ChunkRequest openSnapshot chunkSize)
open QuorumKV.Wal (checksumIEEE copySessionID slice)

/-! ## Messages -/

inductive RaftEntryType where
  | unspecified
  | noOp
  | openSession
  | closeSession
  | set
  | delete
  /-- A number that the enumeration does not name. -/
  | unrecognized (number : Int)
  deriving DecidableEq

structure RaftLogEntry where
  index : Nat
  term : Nat
  type : RaftEntryType
  sessionID : Bytes
  sequence : UInt64
  key : Bytes
  value : Bytes
  deriving DecidableEq

/-- The `message` of a `SendRequest`, one constructor for each member of the oneof. -/
inductive Message where
  | preVoteRequest (term lastLogIndex lastLogTerm : Nat)
  | preVoteResponse (term currentTerm : Nat) (granted : Bool)
  | voteRequest (term lastLogIndex lastLogTerm : Nat)
  | voteResponse (term : Nat) (granted : Bool)
  | appendEntriesRequest (term previousLogIndex previousLogTerm : Nat)
      (entries : List RaftLogEntry) (leaderCommit readID requestID : Nat)
  | appendEntriesResponse (term : Nat) (success : Bool)
      (matchIndex readID requestID conflictTerm conflictIndex : Nat)
  | installSnapshotRequest (term requestID snapshotIndex snapshotTerm snapshotLength : Nat)
      (snapshotChecksum : UInt32) (offset : Nat) (data : Bytes) (done : Bool)
  | installSnapshotResponse (term requestID : Nat) (success : Bool)
      (nextOffset snapshotIndex : Nat) (done : Bool)
  deriving DecidableEq

structure SendRequest where
  protocolVersion : Nat
  clusterID : Bytes
  fromNodeID : NodeID
  toNodeID : NodeID
  message : Option Message
  deriving DecidableEq

def peerProtocolVersion : Nat := 1

/-! ## Encoding -/

def encodeEntryType : EntryType → RaftEntryType
  | .noOp => .noOp
  | .openSession => .openSession
  | .closeSession => .closeSession
  | .set => .set
  | .delete => .delete

def encodeEntry (entry : LogEntry) : RaftLogEntry :=
  { index := entry.index
    term := entry.term
    type := encodeEntryType entry.type
    sessionID := entry.sessionID.bytes
    sequence := entry.sequence
    key := entry.key
    value := entry.value }

/-- The receiver and the message of a send action; nothing where the action is unsupported. -/
def encodeMessage : Action → Option (NodeID × Message)
  | .sendPreVoteRequest dest request =>
      some (dest, .preVoteRequest request.term request.lastLogIndex request.lastLogTerm)
  | .sendPreVoteResponse dest response =>
      some (dest, .preVoteResponse response.term response.currentTerm response.granted)
  | .sendVoteRequest dest request =>
      some (dest, .voteRequest request.term request.lastLogIndex request.lastLogTerm)
  | .sendVoteResponse dest response =>
      some (dest, .voteResponse response.term response.granted)
  | .sendAppendEntries dest request =>
      some (dest, .appendEntriesRequest request.term request.prevLogIndex request.prevLogTerm
        (request.entries.map encodeEntry) request.leaderCommit request.readID request.requestID)
  | .sendAppendEntriesResponse dest response =>
      some (dest, .appendEntriesResponse response.term response.success response.matchIndex
        response.readID response.requestID response.conflictTerm response.conflictIndex)
  | .sendInstallSnapshotResponse dest response =>
      some (dest, .installSnapshotResponse response.term response.requestID response.success
        response.nextOffset response.snapshotIndex response.done)
  | _ => none

def encodeRaftAction (config : Config) (id : NodeID) (action : Action) :
    Option (NodeID × SendRequest) :=
  (encodeMessage action).map fun encoded =>
    (encoded.1,
      { protocolVersion := peerProtocolVersion
        clusterID := config.clusterID
        fromNodeID := id
        toNodeID := encoded.1
        message := some encoded.2 })

/--
The message of `sendSnapshot`.  `directory` finds the contents of a Snapshot file
by the position in its name.
-/
def snapshotMessage (config : Config) (id : NodeID) (json : StateJSON) (taken : Nat)
    (directory : Nat → Nat → Option Bytes) (dest : NodeID)
    (term requestID snapshotIndex snapshotTerm offset : Nat) : Option SendRequest :=
  match directory snapshotIndex snapshotTerm with
  | none => none
  | some contents =>
      match openSnapshot json taken ⟨snapshotIndex, snapshotTerm, contents⟩ with
      | none => none
      | some handle =>
          if offset > handle.length then none
          else
            let last := min (offset + chunkSize) handle.length
            some
              { protocolVersion := peerProtocolVersion
                clusterID := config.clusterID
                fromNodeID := id
                toNodeID := dest
                message := some (.installSnapshotRequest term requestID snapshotIndex
                  snapshotTerm handle.length handle.checksum offset
                  (slice contents offset last) (last == handle.length)) }

/-! ## Decoding -/

inductive DecodeError where
  | unsupportedEntryType (type : RaftEntryType)
  | sessionIdentity (length : Nat)
  | noOpIdentity (length : Nat)
  | payloadRequired
  deriving DecidableEq

def decodeEntryType : RaftEntryType → Except DecodeError EntryType
  | .noOp => .ok .noOp
  | .openSession => .ok .openSession
  | .closeSession => .ok .closeSession
  | .set => .ok .set
  | .delete => .ok .delete
  | type => .error (.unsupportedEntryType type)

def decodeEntry (entry : RaftLogEntry) : Except DecodeError LogEntry := do
  let type ← decodeEntryType entry.type
  if type ≠ .noOp ∧ entry.sessionID.length ≠ 16 then
    throw (.sessionIdentity entry.sessionID.length)
  if type = .noOp ∧ entry.sessionID.length ≠ 0 ∧ entry.sessionID.length ≠ 16 then
    throw (.noOpIdentity entry.sessionID.length)
  return {
    index := entry.index
    term := entry.term
    type := type
    sessionID := copySessionID entry.sessionID
    sequence := entry.sequence
    key := entry.key
    value := entry.value }

/-- What a message decodes to: an event for the core, or a chunk to stage first. -/
inductive Decoded where
  | event (event : Event)
  | chunk (request : ChunkRequest)

def decodeRaftMessage (request : SendRequest) : Except DecodeError Decoded :=
  let sender := request.fromNodeID
  match request.message with
  | some (.preVoteRequest term lastLogIndex lastLogTerm) =>
      .ok (.event (.preVoteRequest ⟨sender, term, lastLogIndex, lastLogTerm⟩))
  | some (.preVoteResponse term currentTerm granted) =>
      .ok (.event (.preVoteResponse ⟨sender, term, currentTerm, granted⟩))
  | some (.voteRequest term lastLogIndex lastLogTerm) =>
      .ok (.event (.voteRequest ⟨sender, term, lastLogIndex, lastLogTerm⟩))
  | some (.voteResponse term granted) =>
      .ok (.event (.voteResponse ⟨sender, term, granted⟩))
  | some (.appendEntriesRequest term previousLogIndex previousLogTerm entries leaderCommit
      readID requestID) =>
      match entries.mapM decodeEntry with
      | .error e => .error e
      | .ok entries =>
          .ok (.event (.appendEntries
            { sender := sender
              term := term
              requestID := requestID
              prevLogIndex := previousLogIndex
              prevLogTerm := previousLogTerm
              entries := entries
              leaderCommit := leaderCommit
              readID := readID }))
  | some (.appendEntriesResponse term success matchIndex readID requestID conflictTerm
      conflictIndex) =>
      .ok (.event (.appendEntriesResponse
        { sender := sender
          term := term
          requestID := requestID
          success := success
          matchIndex := matchIndex
          conflictTerm := conflictTerm
          conflictIndex := conflictIndex
          readID := readID }))
  | some (.installSnapshotRequest term requestID snapshotIndex snapshotTerm length checksum
      offset data done) =>
      .ok (.chunk
        { sender := sender
          term := term
          requestID := requestID
          snapshotIndex := snapshotIndex
          snapshotTerm := snapshotTerm
          length := length
          checksum := checksum
          offset := offset
          data := data
          done := done })
  | some (.installSnapshotResponse term requestID success nextOffset snapshotIndex done) =>
      .ok (.event (.installSnapshotResponse
        { sender := sender
          term := term
          requestID := requestID
          snapshotIndex := snapshotIndex
          success := success
          nextOffset := nextOffset
          done := done }))
  | none => .error .payloadRequired

/-! ## Round trips -/

@[simp] theorem decodeEntryType_encodeEntryType (type : EntryType) :
    decodeEntryType (encodeEntryType type) = .ok type := by
  cases type <;> rfl

theorem decodeEntry_encodeEntry (entry : LogEntry) : decodeEntry (encodeEntry entry) = .ok entry := by
  have hlength := entry.sessionID.length_eq
  have hfull : (encodeEntry entry).sessionID.length = 16 := hlength
  rw [decodeEntry]
  simp only [hfull]
  simp [encodeEntry, pure, Except.pure, bind, Except.bind]

theorem decodeEntries_encodeEntries (entries : List LogEntry) :
    (entries.map encodeEntry).mapM decodeEntry = .ok entries := by
  induction entries with
  | nil => rfl
  | cons entry entries ih =>
      rw [List.map_cons, List.mapM_cons, decodeEntry_encodeEntry, ih]
      rfl

/-- The receiver and the event that a send action carries. -/
def carried : Action → Option (NodeID × Event)
  | .sendPreVoteRequest dest request => some (dest, .preVoteRequest request)
  | .sendPreVoteResponse dest response => some (dest, .preVoteResponse response)
  | .sendVoteRequest dest request => some (dest, .voteRequest request)
  | .sendVoteResponse dest response => some (dest, .voteResponse response)
  | .sendAppendEntries dest request => some (dest, .appendEntries request)
  | .sendAppendEntriesResponse dest response => some (dest, .appendEntriesResponse response)
  | .sendInstallSnapshotResponse dest response => some (dest, .installSnapshotResponse response)
  | _ => none

/-- A signed action encodes to a message from `id` that decodes to what the action carries. -/
theorem decode_encode {config : Config} {id : NodeID} {action : Action} {dest : NodeID}
    {event : Event} (hsigned : action.SignedBy id) (hcarried : carried action = some (dest, event)) :
    ∃ request, encodeRaftAction config id action = some (dest, request) ∧
      request.fromNodeID = id ∧ request.toNodeID = dest ∧
      decodeRaftMessage request = .ok (.event event) := by
  cases action <;>
    simp only [carried, Option.some.injEq, Prod.mk.injEq, reduceCtorEq] at hcarried <;>
    obtain ⟨rfl, rfl⟩ := hcarried <;> subst hsigned <;>
    refine ⟨_, rfl, rfl, rfl, ?_⟩
  case sendAppendEntries request =>
    simp only [decodeRaftMessage, decodeEntries_encodeEntries]
  all_goals rfl

theorem decode_snapshotMessage {config : Config} {id : NodeID} {json : StateJSON} {taken : Nat}
    {directory : Nat → Nat → Option Bytes} {dest : NodeID}
    {term requestID snapshotIndex snapshotTerm offset : Nat} {contents : Bytes}
    (hcontents : directory snapshotIndex snapshotTerm = some contents) :
    (snapshotMessage config id json taken directory dest term requestID snapshotIndex snapshotTerm
        offset).map (fun request => (request.toNodeID, decodeRaftMessage request)) =
      (Snapshot.sendSnapshot json taken ⟨snapshotIndex, snapshotTerm, contents⟩ id term requestID
        offset).map fun chunk => (dest, .ok (.chunk chunk)) := by
  simp only [snapshotMessage, hcontents, Snapshot.sendSnapshot]
  cases openSnapshot json taken ⟨snapshotIndex, snapshotTerm, contents⟩ with
  | none => rfl
  | some handle =>
      by_cases hoffset : offset > handle.length
      · simp only [if_pos hoffset]
        rfl
      · simp only [if_neg hoffset]
        rfl

/--
Every message of a core that runs under the configured identity, whatever it recovered
and whatever happened since, survives the adapter, and so does every chunk of a file.
-/
theorem wire_round_trip (config : Config) (id : NodeID) :
    (∀ peers recovered events event,
      ∀ action ∈ (((Raft.newNodeFromRecoveredState id peers recovered).steps events).step event).2,
      ∀ dest message, carried action = some (dest, message) →
        action.SignedBy id ∧
        ∃ request, encodeRaftAction config id action = some (dest, request) ∧
          request.fromNodeID = id ∧ request.toNodeID = dest ∧
          decodeRaftMessage request = .ok (.event message)) ∧
    ∀ json taken directory dest term requestID snapshotIndex snapshotTerm offset contents state,
      directory snapshotIndex snapshotTerm = some contents →
      SnapshotFile.Opens json ⟨snapshotIndex, snapshotTerm, contents⟩ state →
      offset ≤ contents.length →
      ∃ request, snapshotMessage config id json taken directory dest term requestID snapshotIndex
          snapshotTerm offset = some request ∧
        request.toNodeID = dest ∧
        decodeRaftMessage request = .ok (.chunk
          { sender := id
            term := term
            requestID := requestID
            snapshotIndex := snapshotIndex
            snapshotTerm := snapshotTerm
            length := contents.length
            checksum := checksumIEEE contents
            offset := offset
            data := slice contents offset (min (offset + chunkSize) contents.length)
            done := decide (contents.length ≤ offset + chunkSize) }) := by
  constructor
  · intro peers recovered events event action haction dest message hcarried
    have hcore := (Raft.Node.signed_recovered id peers recovered).steps (fun _ _ _ => trivial) events
    have hsigned : action.SignedBy id :=
      (hcore.step (Raft.Node.admits_any (fun _ _ _ => trivial) _ event)).2 action haction
    exact ⟨hsigned, decode_encode hsigned hcarried⟩
  · intro json taken directory dest term requestID snapshotIndex snapshotTerm offset contents state
      hcontents hopens hoffset
    have hsent := hopens.sends hoffset taken id term requestID
    obtain ⟨request, hrequest, hdecoded⟩ := Option.map_eq_some_iff.mp
      ((decode_snapshotMessage hcontents).trans (congrArg _ hsent))
    obtain ⟨hdest, hchunk⟩ := Prod.mk.inj hdecoded
    exact ⟨request, hrequest, hdest, hchunk⟩

end QuorumKV.Wire
