import QuorumKV.Wal.Written

/-!
# The WAL as its owner uses it

The in-memory state of an open WAL together with the files of its directory,
and the operations of `wal.go`.  File-system failures are not modelled; a call
fails only for the reasons the source checks itself.  A failed call still
returns the state it leaves behind.
-/

namespace QuorumKV.Wal

open Foundation
open QuorumKV.Raft (Bytes)

inductive WalError where
  | entriesRequired
  | entryFollows (index last : UInt64)
  | recordSize (size : Nat)
  | truncateOutside (first last : UInt64)
  | truncateCommitted (first commit : UInt64)
  | commitDecreased (current index : UInt64)
  | commitBeyond (index last : UInt64)
  | compactOutside (snapshotIndex commit : UInt64)
  | snapshotPosition (index term currentIndex currentTerm : UInt64)
  | discardCommitted (index commit : UInt64)
  | coverage (error : ScanError Empty)
  deriving DecidableEq, Repr

/-- An open WAL: `segments` are the earlier files, `contents` the active one. -/
structure WAL where
  identity : Identity
  segmentSize : Nat
  segments : List Segment := []
  segment : Nat := 1
  contents : Bytes := segmentHeader
  lastLogIndex : UInt64 := 0
  commitIndex : UInt64 := 0
  hardState : HardState := {}
  snapshotIndex : UInt64 := 0
  snapshotTerm : UInt64 := 0
  entryBytes : UInt64 → UInt64 := fun _ => 0
  retainedThroughIndex : UInt64 := 0
  retainedBytes : UInt64 := 0

/-- The state a call leaves behind and its error, `none` for success. -/
abbrev Outcome := WAL × Option WalError

namespace WAL

def directory (w : WAL) : List Segment := w.segments ++ [⟨w.segment, w.contents⟩]

def offset (w : WAL) : Nat := w.contents.length

def createSegment (w : WAL) (number : Nat) : WAL :=
  { w with segments := w.directory, segment := number, contents := segmentHeader }

def recordFrameSize (payload : Bytes) : Nat := frameHeaderSize + 1 + payload.length

def prepareRecordBatch (w : WAL) (size : Nat) : WAL :=
  if w.offset > segmentHeaderSize ∧ w.offset + size > w.segmentSize then
    w.createSegment (w.segment + 1)
  else w

def appendRecordInSegment (w : WAL) (kind : RecordType) (payload : Bytes) :
    Except WalError WAL :=
  if payload.length + 1 > maxRecordSize then .error (.recordSize (payload.length + 1))
  else .ok { w with contents := w.contents ++ frame kind.toByte payload }

def appendRecord (w : WAL) (kind : RecordType) (payload : Bytes) : Except WalError WAL :=
  if payload.length + 1 > maxRecordSize then .error (.recordSize (payload.length + 1))
  else (w.prepareRecordBatch (recordFrameSize payload)).appendRecordInSegment kind payload

def appendThen (w : WAL) (kind : RecordType) (payload : Bytes) (update : WAL → WAL) :
    Outcome :=
  match w.appendRecord kind payload with
  | .error e => (w, some e)
  | .ok w => (update w, none)

/-! ## Saving -/

def saveHardState (w : WAL) (state : HardState) : Outcome :=
  w.appendThen .hardState (encodeHardState state) fun w => { w with hardState := state }

def orderError (last : UInt64) : List LogEntry → Option WalError
  | [] => none
  | entry :: entries =>
      if entry.index ≠ last + 1 then some (.entryFollows entry.index last)
      else orderError (last + 1) entries

def appendEntryRecords (w : WAL) : List LogEntry → Outcome
  | [] => (w, none)
  | entry :: entries =>
      match w.appendRecord .logEntryV3 (encodeEntryV3 entry) with
      | .error e => (w, some e)
      | .ok w =>
          { w with
            entryBytes := Function.update w.entryBytes entry.index
              (UInt64.ofNat (recordFrameSize (encodeEntryV3 entry)))
          }.appendEntryRecords entries

def saveLogEntries (w : WAL) (entries : List LogEntry) : Outcome :=
  if entries = [] then (w, some .entriesRequired)
  else
    match orderError w.lastLogIndex entries with
    | some e => (w, some e)
    | none =>
        match w.appendEntryRecords entries with
        | (w, some e) => (w, some e)
        | (w, none) =>
            ({ w with lastLogIndex := w.lastLogIndex + UInt64.ofNat entries.length }, none)

def truncateLog (w : WAL) (first : UInt64) : Outcome :=
  if first = 0 ∨ first > w.lastLogIndex + 1 then
    (w, some (.truncateOutside first w.lastLogIndex))
  else if first ≤ w.commitIndex then (w, some (.truncateCommitted first w.commitIndex))
  else
    w.appendThen .logTruncation (putUint64 first) fun w =>
      { w with
        entryBytes := fun index =>
          if first ≤ index ∧ index ≤ w.lastLogIndex then 0 else w.entryBytes index
        lastLogIndex := first - 1 }

def saveCommitIndex (w : WAL) (index : UInt64) : Outcome :=
  if index < w.commitIndex then (w, some (.commitDecreased w.commitIndex index))
  else if index > w.lastLogIndex then (w, some (.commitBeyond index w.lastLogIndex))
  else if index = w.commitIndex then (w, none)
  else w.appendThen .commitIndex (putUint64 index) fun w => { w with commitIndex := index }

/-! ## Snapshots -/

def removeCovered (snapshotIndex : UInt64) : List Segment → List Segment × Option WalError
  | [] => ([], none)
  | segment :: segments =>
      match segmentCoveredBySnapshot segment.contents snapshotIndex with
      | .error e => (segment :: segments, some (.coverage e))
      | .ok covered =>
          let others := removeCovered snapshotIndex segments
          (if covered then others.1 else segment :: others.1, others.2)

def appendCheckpoint (json : CheckpointJSON) (w : WAL) (checkpoint : CompactionCheckpoint) :
    Outcome :=
  let payload := json.marshal checkpoint
  let truncation := putUint64 checkpoint.truncateFrom
  let w := w.prepareRecordBatch (recordFrameSize payload +
    if checkpoint.truncateFrom ≠ 0 then recordFrameSize truncation else 0)
  match w.appendRecordInSegment .compactionCheckpoint payload with
  | .error e => (w, some e)
  | .ok appended =>
      if checkpoint.truncateFrom ≠ 0 then
        match appended.appendRecordInSegment .logTruncation truncation with
        | .error e => (w, some e)
        | .ok appended => (appended, none)
      else (appended, none)

def installSnapshotCheckpoint (json : CheckpointJSON) (w : WAL)
    (snapshotIndex snapshotTerm commitIndex truncateFrom : UInt64) : Outcome :=
  match w.appendCheckpoint json
      { identity := w.identity
        hardState := w.hardState
        commitIndex := commitIndex
        snapshotIndex := snapshotIndex
        snapshotTerm := snapshotTerm
        truncateFrom := truncateFrom } with
  | (w, some e) => (w, some e)
  | (w, none) =>
      let w := { w with
        snapshotIndex := snapshotIndex
        snapshotTerm := snapshotTerm
        retainedThroughIndex := snapshotIndex
        retainedBytes := 0
        entryBytes := fun index =>
          if truncateFrom ≠ 0 ∧ truncateFrom ≤ index ∧ index ≤ w.lastLogIndex then 0
          else w.entryBytes index }
      match removeCovered snapshotIndex w.segments with
      | (segments, some e) => ({ w with segments := segments }, some e)
      | (segments, none) =>
          ({ w with
              segments := segments
              entryBytes := fun index =>
                if index ≤ snapshotIndex then 0 else w.entryBytes index }, none)

def compact (json : CheckpointJSON) (w : WAL) (snapshotIndex snapshotTerm : UInt64) :
    Outcome :=
  if snapshotIndex = 0 ∨ snapshotIndex > w.commitIndex then
    (w, some (.compactOutside snapshotIndex w.commitIndex))
  else w.installSnapshotCheckpoint json snapshotIndex snapshotTerm w.commitIndex 0

def installSnapshot (json : CheckpointJSON) (w : WAL) (snapshotIndex snapshotTerm : UInt64)
    (retainSuffix : Bool) : Outcome :=
  if snapshotIndex = 0 ∨ snapshotTerm = 0 ∨ snapshotIndex < w.snapshotIndex then
    (w, some (.snapshotPosition snapshotIndex snapshotTerm w.snapshotIndex w.snapshotTerm))
  else if retainSuffix = false ∧ snapshotIndex < w.commitIndex then
    (w, some (.discardCommitted snapshotIndex w.commitIndex))
  else
    let truncateFrom :=
      if retainSuffix = false ∧ snapshotIndex < w.lastLogIndex then snapshotIndex + 1 else 0
    match w.installSnapshotCheckpoint json snapshotIndex snapshotTerm
        (max w.commitIndex snapshotIndex) truncateFrom with
    | (w, some e) => (w, some e)
    | (w, none) =>
        ({ w with
            commitIndex := max w.commitIndex snapshotIndex
            lastLogIndex :=
              if retainSuffix then max w.lastLogIndex snapshotIndex else snapshotIndex }, none)

/-- The loop of `RetainedLogBytes`, `count` positions forward. -/
def retainThrough : Nat → WAL → WAL
  | 0, w => w
  | count + 1, w =>
      retainThrough count { w with
        retainedThroughIndex := w.retainedThroughIndex + 1
        retainedBytes := w.retainedBytes + w.entryBytes (w.retainedThroughIndex + 1) }

def retainedLogBytes (w : WAL) (throughIndex : UInt64) : WAL × UInt64 :=
  let w := retainThrough (throughIndex.toNat - w.retainedThroughIndex.toNat) w
  (w, w.retainedBytes)

end WAL

/-! ## Opening -/

inductive OpenError where
  | identityRequired
  | segmentSize (size : Nat)
  | record (error : WalError)
  | recover (error : RecoverError)
  | identityMismatch (configured durable : Identity)
  deriving DecidableEq, Repr

/-- The WAL of a recovered directory whose last file is `active`. -/
def resumeWAL (identity : Identity) (segmentSize : Nat) (recovered : RecoveredState)
    (segments : List Segment) (active : Segment) : WAL :=
  { identity := identity
    segmentSize := segmentSize
    segments := segments
    segment := active.number
    contents := active.contents
    lastLogIndex := recovered.lastIndex
    commitIndex := recovered.commitIndex
    hardState := recovered.hardState
    snapshotIndex := recovered.snapshotIndex
    snapshotTerm := recovered.snapshotTerm
    retainedThroughIndex := recovered.snapshotIndex
    entryBytes := recovered.log.foldl (fun sizes entry =>
      Function.update sizes entry.index
        (UInt64.ofNat (WAL.recordFrameSize (encodeEntryV3 entry)))) fun _ => 0 }

def openSegments (json : CheckpointJSON) (directory : List Segment) (identity : Identity)
    (segmentSize : Nat) : Except OpenError (WAL × RecoveredState) :=
  match directory with
  | [] =>
      match ({ identity := identity, segmentSize := segmentSize } : WAL).appendRecord
          .clusterIdentity identity.clusterID with
      | .error e => .error (.record e)
      | .ok w =>
          match w.appendRecord .nodeIdentity identity.nodeID with
          | .error e => .error (.record e)
          | .ok w => .ok (w, { identity := identity })
  | segment :: segments =>
      match recoverSegments json (segment :: segments) with
      | .error e => .error (.recover e)
      | .ok (recovered, files) =>
          if recovered.identity ≠ identity then
            .error (.identityMismatch identity recovered.identity)
          else
            .ok (resumeWAL identity segmentSize recovered files.dropLast
              (files.getLast?.getD segment), recovered)

/-- `open`, which `Open` calls with the default segment size. -/
def openWAL (json : CheckpointJSON) (directory : List Segment) (identity : Identity)
    (segmentSize : Nat) : Except OpenError (WAL × RecoveredState) :=
  if blank identity.clusterID ∨ blank identity.nodeID then .error .identityRequired
  else if segmentSize ≤ segmentHeaderSize + frameHeaderSize then
    .error (.segmentSize segmentSize)
  else openSegments json directory identity segmentSize

end QuorumKV.Wal
