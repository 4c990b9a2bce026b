import QuorumKV.Foundation.BigEndian
import QuorumKV.Raft.Types

/-!
# WAL records and their replay

The record vocabulary of `internal/wal/wal.go` and `applyRecord`, which folds one
record into the state being recovered.  Checkpoints are JSON: `CheckpointJSON`
stands for `encoding/json` at that one type and assumes of it only that it
decodes what it encoded when the strings are valid UTF-8.
-/

namespace QuorumKV.Wal

open Foundation
open QuorumKV.Raft (Bytes SessionID)

inductive RecordType where
  | clusterIdentity
  | nodeIdentity
  | hardState
  | logEntries
  | logEntriesV2
  | logEntryV3
  | logTruncation
  | commitIndex
  | compactionCheckpoint
  deriving DecidableEq, Repr

def RecordType.toByte : RecordType → UInt8
  | .clusterIdentity => 1
  | .nodeIdentity => 2
  | .hardState => 3
  | .logEntries => 4
  | .logEntriesV2 => 5
  | .logEntryV3 => 6
  | .logTruncation => 7
  | .commitIndex => 8
  | .compactionCheckpoint => 9

def RecordType.ofByte? : UInt8 → Option RecordType
  | 1 => some .clusterIdentity
  | 2 => some .nodeIdentity
  | 3 => some .hardState
  | 4 => some .logEntries
  | 5 => some .logEntriesV2
  | 6 => some .logEntryV3
  | 7 => some .logTruncation
  | 8 => some .commitIndex
  | 9 => some .compactionCheckpoint
  | _ => none

@[simp] theorem RecordType.ofByte?_toByte (kind : RecordType) :
    RecordType.ofByte? kind.toByte = some kind := by
  cases kind <;> rfl

structure Identity where
  clusterID : Bytes := []
  nodeID : Bytes := []
  deriving DecidableEq, Repr

structure HardState where
  term : UInt64 := 0
  votedFor : Bytes := []
  deriving DecidableEq, Repr

structure LogEntry where
  index : UInt64
  term : UInt64
  type : UInt8
  sessionID : SessionID := SessionID.zero
  sequence : UInt64 := 0
  key : Bytes := []
  value : Bytes := []
  deriving DecidableEq, Repr

structure RecoveredState where
  identity : Identity := {}
  hardState : HardState := {}
  log : List LogEntry := []
  commitIndex : UInt64 := 0
  snapshotIndex : UInt64 := 0
  snapshotTerm : UInt64 := 0
  deriving DecidableEq, Repr

structure CompactionCheckpoint where
  identity : Identity := {}
  hardState : HardState := {}
  commitIndex : UInt64 := 0
  snapshotIndex : UInt64 := 0
  snapshotTerm : UInt64 := 0
  truncateFrom : UInt64 := 0
  deriving DecidableEq, Repr

def ValidUTF8 (bytes : Bytes) : Prop := ByteArray.IsValidUTF8 ⟨bytes.toArray⟩

/-- Every string of the checkpoint is valid UTF-8. -/
structure CompactionCheckpoint.ValidStrings (checkpoint : CompactionCheckpoint) : Prop where
  clusterID : ValidUTF8 checkpoint.identity.clusterID
  nodeID : ValidUTF8 checkpoint.identity.nodeID
  votedFor : ValidUTF8 checkpoint.hardState.votedFor

structure CheckpointJSON where
  marshal : CompactionCheckpoint → Bytes
  unmarshal : Bytes → Option CompactionCheckpoint
  unmarshal_marshal : ∀ checkpoint, checkpoint.ValidStrings →
    unmarshal (marshal checkpoint) = some checkpoint

/-- The errors of `applyRecord`, with the numbers their texts report. -/
inductive RecordError where
  | clusterIdentityConflict
  | nodeIdentityBeforeCluster
  | nodeIdentityConflict
  | hardStateBeforeIdentity
  | hardStateShort
  | entriesLength (length : Nat)
  | sessionEntriesLength (length : Nat)
  | entryShort (length : Nat)
  | entryLength (length want : Nat)
  | entryFollows (index last : UInt64)
  | truncationLength (length : Nat)
  | truncationZero
  | truncationOutside (first last : UInt64)
  | truncationCommitted (first commit : UInt64)
  | commitLength (length : Nat)
  | commitBeyond (index last : UInt64)
  | checkpointDecode
  | checkpointIdentity
  | checkpointNewer
  | checkpointTruncation (from' index : UInt64)
  | unknownType (kind : UInt8)
  deriving DecidableEq, Repr

/-- `bytes[first:last]`. -/
def slice (bytes : Bytes) (first last : Nat) : Bytes := (bytes.drop first).take (last - first)

/-- `copy(id[:], bytes)` into a zeroed identity. -/
def copySessionID (bytes : Bytes) : SessionID :=
  ⟨bytes.take 16 ++ List.replicate (16 - bytes.length) 0, by
    simp only [List.length_append, List.length_take, List.length_replicate]
    omega⟩

@[simp] theorem copySessionID_bytes (id : SessionID) : copySessionID id.bytes = id := by
  have hlength := id.length_eq
  cases id
  simp only [copySessionID, SessionID.mk.injEq]
  simp_all

namespace RecoveredState

def lastIndex (state : RecoveredState) : UInt64 :=
  state.snapshotIndex + UInt64.ofNat state.log.length

theorem toNat_lastIndex {state : RecoveredState}
    (h : state.snapshotIndex.toNat + state.log.length < 2 ^ 64) :
    state.lastIndex.toNat = state.snapshotIndex.toNat + state.log.length := by
  rw [lastIndex, UInt64.toNat_add, UInt64.toNat_ofNat']
  omega

/-- The tail common to the three log-entry record types. -/
def appendEntry (state : RecoveredState) (entry : LogEntry) :
    Except RecordError RecoveredState :=
  if entry.index ≤ state.snapshotIndex then .ok state
  else if entry.index ≠ state.lastIndex + 1 then
    .error (.entryFollows entry.index state.lastIndex)
  else .ok { state with log := state.log ++ [entry] }

/-- The record loop of the two legacy formats, `count` entries of `width` bytes. -/
def appendEntries (width : Nat) (decode : Bytes → LogEntry) :
    Nat → Bytes → RecoveredState → Except RecordError RecoveredState
  | 0, _, state => .ok state
  | count + 1, payload, state =>
      match state.appendEntry (decode payload) with
      | .error e => .error e
      | .ok state => appendEntries width decode count (payload.drop width) state

/-! ### The cases of `applyRecord`, after their payload is decoded -/

def applyClusterIdentity (state : RecoveredState) (id : Bytes) :
    Except RecordError RecoveredState :=
  if state.identity.clusterID ≠ [] then
    if state.identity.clusterID ≠ id then .error .clusterIdentityConflict else .ok state
  else .ok { state with identity := { state.identity with clusterID := id } }

def applyNodeIdentity (state : RecoveredState) (id : Bytes) :
    Except RecordError RecoveredState :=
  if state.identity.clusterID = [] then .error .nodeIdentityBeforeCluster
  else if state.identity.nodeID ≠ [] then
    if state.identity.nodeID ≠ id then .error .nodeIdentityConflict else .ok state
  else .ok { state with identity := { state.identity with nodeID := id } }

def applyHardState (state : RecoveredState) (hardState : HardState) : RecoveredState :=
  if hardState.term < state.hardState.term then state
  else if hardState.term = state.hardState.term ∧ state.hardState.votedFor ≠ [] then state
  else { state with hardState := hardState }

def applyTruncation (state : RecoveredState) (first : UInt64) :
    Except RecordError RecoveredState :=
  if first = 0 then .error .truncationZero
  else if first ≤ state.snapshotIndex then .ok state
  else if first > state.lastIndex + 1 then
    .error (.truncationOutside first state.lastIndex)
  else if first ≤ state.commitIndex then
    .error (.truncationCommitted first state.commitIndex)
  else .ok { state with log := state.log.take (first - state.snapshotIndex - 1).toNat }

def applyCommitIndex (state : RecoveredState) (index : UInt64) :
    Except RecordError RecoveredState :=
  if index < state.commitIndex then .ok state
  else if index > state.lastIndex then .error (.commitBeyond index state.lastIndex)
  else .ok { state with commitIndex := index }

def applyCheckpoint (state : RecoveredState) (checkpoint : CompactionCheckpoint) :
    Except RecordError RecoveredState :=
  if checkpoint.identity ≠ state.identity then .error .checkpointIdentity
  else if checkpoint.snapshotIndex > state.snapshotIndex then .error .checkpointNewer
  else if checkpoint.truncateFrom ≠ 0 then
    if checkpoint.truncateFrom ≠ checkpoint.snapshotIndex + 1 then
      .error (.checkpointTruncation checkpoint.truncateFrom checkpoint.snapshotIndex)
    else if checkpoint.snapshotIndex = state.snapshotIndex then
      -- The log is contiguous, so the source's binary search finds this prefix.
      .ok { state with
        log := state.log.takeWhile fun entry => entry.index < checkpoint.truncateFrom }
    else .ok state
  else .ok state

end RecoveredState

def decodeEntryHead (payload : Bytes) : LogEntry :=
  { index := uint64 (slice payload 0 8)
    term := uint64 (slice payload 8 16)
    type := (slice payload 16 17).headD 0 }

def decodeEntryV2 (payload : Bytes) : LogEntry :=
  { decodeEntryHead payload with sessionID := copySessionID (slice payload 17 33) }

def decodeEntryV3 (payload : Bytes) : LogEntry :=
  let keyLength := (uint32 (slice payload 41 45)).toNat
  { decodeEntryV2 payload with
    sequence := uint64 (slice payload 33 41)
    key := slice payload 49 (49 + keyLength)
    value := payload.drop (49 + keyLength) }

def encodeEntryV3 (entry : LogEntry) : Bytes :=
  putUint64 entry.index ++ putUint64 entry.term ++ [entry.type] ++ entry.sessionID.bytes ++
    putUint64 entry.sequence ++ putUint32 (UInt32.ofNat entry.key.length) ++
    putUint32 (UInt32.ofNat entry.value.length) ++ entry.key ++ entry.value

def encodeHardState (state : HardState) : Bytes := putUint64 state.term ++ state.votedFor

def applyRecord (json : CheckpointJSON) (kind : UInt8) (payload : Bytes)
    (state : RecoveredState) : Except RecordError RecoveredState :=
  match RecordType.ofByte? kind with
  | none => .error (.unknownType kind)
  | some .clusterIdentity => state.applyClusterIdentity payload
  | some .nodeIdentity => state.applyNodeIdentity payload
  | some .hardState =>
      if state.identity.nodeID = [] then .error .hardStateBeforeIdentity
      else if payload.length < 8 then .error .hardStateShort
      else .ok (state.applyHardState ⟨uint64 (slice payload 0 8), payload.drop 8⟩)
  | some .logEntries =>
      if payload.length = 0 ∨ payload.length % 17 ≠ 0 then
        .error (.entriesLength payload.length)
      else state.appendEntries 17 decodeEntryHead (payload.length / 17) payload
  | some .logEntriesV2 =>
      if payload.length = 0 ∨ payload.length % 33 ≠ 0 then
        .error (.sessionEntriesLength payload.length)
      else state.appendEntries 33 decodeEntryV2 (payload.length / 33) payload
  | some .logEntryV3 =>
      if payload.length < 49 then .error (.entryShort payload.length)
      else
        let want := 49 + (uint32 (slice payload 41 45)).toNat +
          (uint32 (slice payload 45 49)).toNat
        if want ≠ payload.length then .error (.entryLength payload.length want)
        else state.appendEntry (decodeEntryV3 payload)
  | some .logTruncation =>
      if payload.length ≠ 8 then .error (.truncationLength payload.length)
      else state.applyTruncation (uint64 payload)
  | some .commitIndex =>
      if payload.length ≠ 8 then .error (.commitLength payload.length)
      else state.applyCommitIndex (uint64 payload)
  | some .compactionCheckpoint =>
      match json.unmarshal payload with
      | none => .error .checkpointDecode
      | some checkpoint => state.applyCheckpoint checkpoint

/-! ## Records as the writer means them -/

/-- A record in the current format, before it is encoded. -/
inductive Record where
  | clusterIdentity (id : Bytes)
  | nodeIdentity (id : Bytes)
  | hardState (state : HardState)
  | entry (entry : LogEntry)
  | truncation (first : UInt64)
  | commit (index : UInt64)
  | checkpoint (checkpoint : CompactionCheckpoint)
  deriving DecidableEq, Repr

namespace Record

def kind : Record → RecordType
  | .clusterIdentity _ => .clusterIdentity
  | .nodeIdentity _ => .nodeIdentity
  | .hardState _ => .hardState
  | .entry _ => .logEntryV3
  | .truncation _ => .logTruncation
  | .commit _ => .commitIndex
  | .checkpoint _ => .compactionCheckpoint

def payload (json : CheckpointJSON) : Record → Bytes
  | .clusterIdentity id => id
  | .nodeIdentity id => id
  | .hardState state => encodeHardState state
  | .entry e => encodeEntryV3 e
  | .truncation first => putUint64 first
  | .commit index => putUint64 index
  | .checkpoint c => json.marshal c

/-- What replaying the record does to the recovered state. -/
def replay (state : RecoveredState) : Record → Except RecordError RecoveredState
  | .clusterIdentity id => state.applyClusterIdentity id
  | .nodeIdentity id => state.applyNodeIdentity id
  | .hardState h =>
      if state.identity.nodeID = [] then .error .hardStateBeforeIdentity
      else .ok (state.applyHardState h)
  | .entry e => state.appendEntry e
  | .truncation first => state.applyTruncation first
  | .commit index => state.applyCommitIndex index
  | .checkpoint c => state.applyCheckpoint c

/-- The record survives its encoding: its lengths fit and its strings are valid. -/
def Encodable : Record → Prop
  | .entry e => e.key.length < 2 ^ 32 ∧ e.value.length < 2 ^ 32
  | .checkpoint c => c.ValidStrings
  | _ => True

end Record

theorem encodeEntryV3_length (entry : LogEntry) :
    (encodeEntryV3 entry).length = 49 + entry.key.length + entry.value.length := by
  simp [encodeEntryV3, entry.sessionID.length_eq]
  omega

theorem slice_length {bytes : Bytes} {first last : Nat} (h : last ≤ bytes.length) :
    (slice bytes first last).length = last - first := by
  simp only [slice, List.length_take, List.length_drop]
  omega

theorem slice_field (before field after : Bytes) {bytes : Bytes} {first last : Nat}
    (hbytes : bytes = before ++ (field ++ after)) (hfirst : before.length = first)
    (hlast : first + field.length = last) : slice bytes first last = field := by
  subst hbytes hfirst hlast
  simp [slice]

theorem decodeEntryV3_encodeEntryV3 {e : LogEntry} (hkey : e.key.length < 2 ^ 32)
    (hvalue : e.value.length < 2 ^ 32) :
    decodeEntryV3 (encodeEntryV3 e) = e ∧
      (uint32 (slice (encodeEntryV3 e) 41 45)).toNat = e.key.length ∧
      (uint32 (slice (encodeEntryV3 e) 45 49)).toNat = e.value.length := by
  obtain ⟨index, term, type, sessionID, sequence, key, value⟩ := e
  have hsession := sessionID.length_eq
  generalize hencoded : encodeEntryV3 _ = bytes
  simp only [encodeEntryV3] at hencoded hkey hvalue ⊢
  have hindex : slice bytes 0 8 = putUint64 index :=
    slice_field [] (putUint64 index) _ (by rw [← hencoded]; simp; rfl) rfl (by simp)
  have hterm : slice bytes 8 16 = putUint64 term :=
    slice_field (putUint64 index) (putUint64 term) _ (by rw [← hencoded]; simp; rfl)
      (by simp) (by simp)
  have htype : slice bytes 16 17 = [type] :=
    slice_field (putUint64 index ++ putUint64 term) [type] _
      (by rw [← hencoded]; simp; rfl) (by simp) (by simp)
  have hid : slice bytes 17 33 = sessionID.bytes :=
    slice_field (putUint64 index ++ putUint64 term ++ [type]) sessionID.bytes _
      (by rw [← hencoded]; simp; rfl) (by simp) (by simp [hsession])
  have hsequence : slice bytes 33 41 = putUint64 sequence :=
    slice_field (putUint64 index ++ putUint64 term ++ [type] ++ sessionID.bytes)
      (putUint64 sequence) _ (by rw [← hencoded]; simp; rfl) (by simp [hsession]) (by simp)
  have hkeySlice : slice bytes 41 45 = putUint32 (UInt32.ofNat key.length) :=
    slice_field (putUint64 index ++ putUint64 term ++ [type] ++ sessionID.bytes ++
      putUint64 sequence) (putUint32 (UInt32.ofNat key.length)) _
      (by rw [← hencoded]; simp; rfl) (by simp [hsession]) (by simp)
  have hvalueSlice : slice bytes 45 49 = putUint32 (UInt32.ofNat value.length) :=
    slice_field (putUint64 index ++ putUint64 term ++ [type] ++ sessionID.bytes ++
      putUint64 sequence ++ putUint32 (UInt32.ofNat key.length))
      (putUint32 (UInt32.ofNat value.length)) _
      (by rw [← hencoded]; simp; rfl) (by simp [hsession]) (by simp)
  have hkeyLength : (uint32 (slice bytes 41 45)).toNat = key.length := by
    rw [hkeySlice, uint32_putUint32, UInt32.toNat_ofNat', Nat.mod_eq_of_lt hkey]
  have hvalueLength : (uint32 (slice bytes 45 49)).toNat = value.length := by
    rw [hvalueSlice, uint32_putUint32, UInt32.toNat_ofNat', Nat.mod_eq_of_lt hvalue]
  have hkeyBytes : slice bytes 49 (49 + key.length) = key :=
    slice_field (putUint64 index ++ putUint64 term ++ [type] ++ sessionID.bytes ++
      putUint64 sequence ++ putUint32 (UInt32.ofNat key.length) ++
      putUint32 (UInt32.ofNat value.length)) key value
      (by rw [← hencoded]; simp) (by simp [hsession]) rfl
  have hvalueBytes : bytes.drop (49 + key.length) = value := by
    rw [← hencoded, List.drop_left' (by simp [hsession]; omega)]
  refine ⟨?_, hkeyLength, hvalueLength⟩
  simp [decodeEntryV3, decodeEntryV2, decodeEntryHead, hkeyLength, hindex, hterm, htype,
    hid, hsequence, hkeyBytes, hvalueBytes]

theorem Record.applyRecord_payload (json : CheckpointJSON) {record : Record}
    (h : record.Encodable) (state : RecoveredState) :
    applyRecord json record.kind.toByte (record.payload json) state = record.replay state := by
  cases record with
  | clusterIdentity _ | nodeIdentity _ | truncation _ | commit _ =>
      simp [applyRecord, Record.kind, Record.payload, Record.replay]
  | hardState hardState =>
      simp [applyRecord, Record.kind, Record.payload, Record.replay, encodeHardState, slice]
  | entry e =>
      obtain ⟨hdecode, hkey, hvalue⟩ := decodeEntryV3_encodeEntryV3 h.1 h.2
      have hlength := encodeEntryV3_length e
      have hshort : ¬ (encodeEntryV3 e).length < 49 := by omega
      simp [applyRecord, Record.kind, Record.payload, Record.replay, hdecode, hkey, hvalue,
        hshort, ← hlength]
  | checkpoint c =>
      simp [applyRecord, Record.kind, Record.payload, Record.replay,
        json.unmarshal_marshal c h]

end QuorumKV.Wal
