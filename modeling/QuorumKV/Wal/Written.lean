import QuorumKV.Wal.Segment

/-!
# Reading written segments

A directory whose segments hold the frames of given records recovers exactly as
those records replay.  From here on recovery is a fold over records; bytes no
longer matter.
-/

namespace QuorumKV.Wal

open Foundation
open QuorumKV.Raft (Bytes)

namespace Record

def frame (json : CheckpointJSON) (record : Record) : Bytes :=
  Wal.frame record.kind.toByte (record.payload json)

/-- `appendRecord` accepts the record, and its encoding can be read back. -/
structure Writable (json : CheckpointJSON) (record : Record) : Prop where
  encodable : record.Encodable
  size : (record.payload json).length + 1 ≤ maxRecordSize

def replayAll (state : RecoveredState) : List Record → Except RecordError RecoveredState
  | [] => .ok state
  | record :: records =>
      match record.replay state with
      | .error e => .error e
      | .ok state => replayAll state records

theorem replayAll_append (state : RecoveredState) (left right : List Record) :
    replayAll state (left ++ right) =
      match replayAll state left with
      | .error e => .error e
      | .ok state => replayAll state right := by
  induction left generalizing state with
  | nil => rfl
  | cons record left ih =>
      simp only [List.cons_append, replayAll]
      cases record.replay state with
      | error e => rfl
      | ok state => exact ih state

def newest (found : CompactionCheckpoint) : Record → CompactionCheckpoint
  | .checkpoint c => c
  | _ => found

def coveredBy (snapshotIndex : UInt64) : Record → Bool
  | .entry e => e.index ≤ snapshotIndex
  | .truncation first => first ≤ snapshotIndex
  | _ => true

def CheckpointOK : Record → Prop
  | .checkpoint c =>
      blank c.identity.clusterID = false ∧ blank c.identity.nodeID = false ∧
        c.snapshotIndex ≠ 0 ∧ c.snapshotTerm ≠ 0 ∧ c.snapshotIndex ≤ c.commitIndex ∧
        (c.truncateFrom = 0 ∨ c.truncateFrom = c.snapshotIndex + 1)
  | _ => True

theorem visitCheckpoint_payload {json : CheckpointJSON} {record : Record}
    (hencodable : record.Encodable) (hcheckpoint : record.CheckpointOK)
    (found : CompactionCheckpoint) :
    visitCheckpoint json found record.kind.toByte (record.payload json) =
      .ok (record.newest found) := by
  cases record with
  | checkpoint c =>
      obtain ⟨hcluster, hnode, hindex, hterm, hcommit, htruncate⟩ := hcheckpoint
      have hnewer : ¬ c.snapshotIndex > c.commitIndex := UInt64.not_lt.mpr hcommit
      have hfrom : ¬ (c.truncateFrom ≠ 0 ∧ c.truncateFrom ≠ c.snapshotIndex + 1) := by
        rintro ⟨hzero, hsucc⟩
        exact htruncate.elim hzero hsucc
      simp only [visitCheckpoint, kind, payload, newest, ne_eq, not_true, if_false,
        json.unmarshal_marshal c hencodable, hcluster, hnode, hindex, hterm, hnewer,
        Bool.false_eq_true, or_self, if_neg hfrom]
  | _ => rfl

theorem visitCoverage_payload (json : CheckpointJSON) (record : Record)
    (snapshotIndex : UInt64) (covered : Bool) :
    visitCoverage snapshotIndex covered record.kind.toByte (record.payload json) =
      .ok (covered && record.coveredBy snapshotIndex) := by
  cases record with
  | entry e =>
      have hindex : slice (encodeEntryV3 e) 0 8 = putUint64 e.index :=
        slice_field [] _ _ (by simp [encodeEntryV3]; rfl) rfl (by simp)
      have hlength : ¬ (encodeEntryV3 e).length < 8 := by
        rw [encodeEntryV3_length]
        omega
      simp only [visitCoverage, kind, payload, coveredBy, RecordType.ofByte?_toByte, hindex,
        uint64_putUint64, hlength, decide_false, Bool.false_or, ← decide_not, gt_iff_lt,
        UInt64.not_lt]
  | truncation first =>
      simp only [visitCoverage, kind, payload, coveredBy, RecordType.ofByte?_toByte,
        uint64_putUint64, putUint64_length, ne_eq, not_true, decide_false, Bool.false_or,
        ← decide_not, gt_iff_lt, UInt64.not_lt]
  | _ => simp [visitCoverage, kind, coveredBy]

end Record

def writtenSegment (json : CheckpointJSON) (records : List Record) : Bytes :=
  segmentHeader ++ records.flatMap (Record.frame json)

section Written

variable {json : CheckpointJSON} {records : List Record}

theorem readFrames_written (hwritable : ∀ r ∈ records, r.Writable json) (final : Bool)
    (offset : Nat) (state : RecoveredState) :
    (∀ state', Record.replayAll state records = .ok state' →
      readFrames json final offset (records.flatMap (Record.frame json)) state =
        .ok (state', offset + (records.flatMap (Record.frame json)).length)) ∧
    (∀ e, Record.replayAll state records = .error e → ∃ position,
      readFrames json final offset (records.flatMap (Record.frame json)) state =
        .error (.record position e)) := by
  induction records generalizing offset state with
  | nil => simp [Record.replayAll, readFrames, readFramesWith]
  | cons record records ih =>
      have hrecord := hwritable record (by simp)
      have hstep := readFrames_frame json final offset record.kind.toByte
        (records.flatMap (Record.frame json)) state hrecord.size
      rw [Record.applyRecord_payload json hrecord.encodable] at hstep
      rw [List.flatMap_cons, Record.frame, hstep]
      cases hreplay : record.replay state with
      | error e => simp [Record.replayAll, hreplay]
      | ok next =>
          simp only [Record.replayAll, hreplay]
          have hrest := ih (fun r hr => hwritable r (by simp [hr]))
            (offset + frameHeaderSize + ((record.payload json).length + 1)) next
          refine ⟨fun state' hstate' => ?_, hrest.2⟩
          rw [hrest.1 state' hstate', List.length_append, frame_length]
          congr 2
          omega

theorem scanFrames_written {α ε : Type} (hwritable : ∀ r ∈ records, r.Writable json)
    {visit : α → UInt8 → Bytes → Except ε α} {next : α → Record → α}
    (hvisit : ∀ r ∈ records, ∀ a,
      visit a r.kind.toByte (r.payload json) = .ok (next a r))
    (tolerate : Bool) (offset : Nat) (visited : α) :
    scanFrames tolerate visit offset (records.flatMap (Record.frame json)) visited =
      .ok (records.foldl next visited) := by
  induction records generalizing offset visited with
  | nil => simp [scanFrames]
  | cons record records ih =>
      have hrecord := hwritable record (by simp)
      have hstep := scanFrames_frame tolerate visit offset record.kind.toByte
        (records.flatMap (Record.frame json)) visited hrecord.size
      rw [hvisit record (by simp)] at hstep
      rw [List.flatMap_cons, Record.frame, hstep, List.foldl_cons]
      exact ih (fun r hr => hwritable r (by simp [hr]))
        (fun r hr => hvisit r (by simp [hr])) _ _

theorem writtenSegment_head (json : CheckpointJSON) (records : List Record) :
    ¬ (writtenSegment json records).length < segmentHeaderSize ∧
      slice (writtenSegment json records) 0 8 = segmentMagic ∧
      uint32 (slice (writtenSegment json records) 8 12) = formatVersion ∧
      (writtenSegment json records).drop segmentHeaderSize =
        records.flatMap (Record.frame json) :=
  segmentHeader_head _

theorem readSegment_written (hwritable : ∀ r ∈ records, r.Writable json) (final : Bool)
    (state : RecoveredState) :
    (∀ state', Record.replayAll state records = .ok state' →
      readSegment json (writtenSegment json records) final state =
        .ok (state', writtenSegment json records)) ∧
    (∀ e, Record.replayAll state records = .error e → ∃ position,
      readSegment json (writtenSegment json records) final state =
        .error (.record position e)) := by
  obtain ⟨hlength, hmagic, hversion, hdrop⟩ := writtenSegment_head json records
  obtain ⟨hok, herror⟩ := readFrames_written hwritable final segmentHeaderSize state
  simp only [readSegment, readSegmentWith, if_neg hlength, hmagic, hversion, hdrop, ne_eq,
    not_true, if_false]
  rw [← readFrames]
  constructor
  · intro state' hstate'
    have hsize : segmentHeaderSize + (records.flatMap (Record.frame json)).length =
        (writtenSegment json records).length := by
      rw [← hdrop, List.length_drop]
      omega
    rw [hok state' hstate', hsize]
    simp
  · intro e he
    obtain ⟨position, hposition⟩ := herror e he
    exact ⟨position, by rw [hposition]⟩

theorem scanSegmentFrames_written {α ε : Type} (hwritable : ∀ r ∈ records, r.Writable json)
    {visit : α → UInt8 → Bytes → Except ε α} {next : α → Record → α}
    (hvisit : ∀ r ∈ records, ∀ a,
      visit a r.kind.toByte (r.payload json) = .ok (next a r))
    (tolerate : Bool) (visited : α) :
    scanSegmentFrames (writtenSegment json records) tolerate visit visited =
      .ok (records.foldl next visited) := by
  obtain ⟨hlength, hmagic, hversion, hdrop⟩ := writtenSegment_head json records
  have htake : (writtenSegment json records).take 8 = segmentMagic := by
    simpa [slice] using hmagic
  simp only [scanSegmentFrames, if_neg hlength, htake, hversion, hdrop, ne_eq, not_true,
    if_false]
  exact scanFrames_written hwritable hvisit tolerate segmentHeaderSize visited

theorem segmentCoveredBySnapshot_written (hwritable : ∀ r ∈ records, r.Writable json)
    (snapshotIndex : UInt64) :
    segmentCoveredBySnapshot (writtenSegment json records) snapshotIndex =
      .ok (records.all (Record.coveredBy snapshotIndex)) := by
  rw [segmentCoveredBySnapshot, scanSegmentFrames_written hwritable
    (fun r _ covered => r.visitCoverage_payload json snapshotIndex covered)]
  congr 1
  suffices h : ∀ covered : Bool,
      records.foldl (fun covered r => covered && r.coveredBy snapshotIndex) covered =
        (covered && records.all (Record.coveredBy snapshotIndex)) by
    simpa using h true
  clear hwritable
  induction records with
  | nil => simp
  | cons record records ih =>
      intro covered
      rw [List.foldl_cons, ih, List.all_cons, Bool.and_assoc]

end Written

/-! ## Whole directories -/

structure Block where
  number : Nat
  records : List Record

def Block.segment (json : CheckpointJSON) (block : Block) : Segment :=
  ⟨block.number, writtenSegment json block.records⟩

def blockRecords (blocks : List Block) : List Record := blocks.flatMap Block.records

def CompactionCheckpoint.start (checkpoint : CompactionCheckpoint) : RecoveredState :=
  { identity := checkpoint.identity
    hardState := checkpoint.hardState
    commitIndex := checkpoint.commitIndex
    snapshotIndex := checkpoint.snapshotIndex
    snapshotTerm := checkpoint.snapshotTerm }

section Directory

variable {json : CheckpointJSON} {blocks : List Block}

theorem newestCompactionCheckpoint_written
    (hwritable : ∀ r ∈ blockRecords blocks, r.Writable json)
    (hcheckpoint : ∀ r ∈ blockRecords blocks, r.CheckpointOK)
    (found : CompactionCheckpoint) :
    newestCompactionCheckpoint json found (blocks.map (Block.segment json)) =
      .ok ((blockRecords blocks).foldl Record.newest found) := by
  induction blocks generalizing found with
  | nil => rfl
  | cons block blocks ih =>
      simp only [blockRecords, List.flatMap_cons, List.mem_append] at hwritable hcheckpoint
      simp only [List.map_cons, newestCompactionCheckpoint, Block.segment]
      rw [scanSegmentFrames_written (fun r hr => hwritable r (.inl hr))
        (fun r hr found => Record.visitCheckpoint_payload
          (hwritable r (.inl hr)).encodable (hcheckpoint r (.inl hr)) found)]
      simp only [blockRecords, List.flatMap_cons, List.foldl_append]
      exact ih (fun r hr => hwritable r (.inr hr)) (fun r hr => hcheckpoint r (.inr hr)) _

theorem readSegments_written (hwritable : ∀ r ∈ blockRecords blocks, r.Writable json)
    (state : RecoveredState) :
    (∀ state', Record.replayAll state (blockRecords blocks) = .ok state' →
      readSegments json state (blocks.map (Block.segment json)) =
        .ok (state', blocks.map (Block.segment json))) ∧
    (∀ e, Record.replayAll state (blockRecords blocks) = .error e → ∃ number position,
      readSegments json state (blocks.map (Block.segment json)) =
        .error (.segment number (.record position e))) := by
  induction blocks generalizing state with
  | nil => simp [blockRecords, Record.replayAll, readSegments]
  | cons block blocks ih =>
      simp only [blockRecords, List.flatMap_cons, List.mem_append] at hwritable
      obtain ⟨hok, herror⟩ := readSegment_written (fun r hr => hwritable r (.inl hr))
        (blocks.map (Block.segment json)).isEmpty state
      simp only [blockRecords, List.flatMap_cons, Record.replayAll_append, List.map_cons,
        readSegments, Block.segment]
      cases hreplay : Record.replayAll state block.records with
      | error e =>
          obtain ⟨position, hposition⟩ := herror e hreplay
          refine ⟨by simp, ?_⟩
          rintro e' he'
          rw [hposition]
          exact ⟨block.number, position, by simp_all⟩
      | ok next =>
          rw [hok next hreplay]
          obtain ⟨hrestOk, hrestError⟩ := ih (fun r hr => hwritable r (.inr hr)) next
          constructor
          · intro state' hstate'
            simp only [hrestOk state' hstate']
          · intro e he
            obtain ⟨number, position, hposition⟩ := hrestError e he
            exact ⟨number, position, by simp only [hposition]⟩

theorem recoverSegments_written
    (hwritable : ∀ r ∈ blockRecords blocks, r.Writable json)
    (hcheckpoint : ∀ r ∈ blockRecords blocks, r.CheckpointOK) :
    (∀ state, Record.replayAll ((blockRecords blocks).foldl Record.newest {}).start
        (blockRecords blocks) = .ok state →
      state.identity.clusterID ≠ [] → state.identity.nodeID ≠ [] →
      recoverSegments json (blocks.map (Block.segment json)) =
        .ok (state, blocks.map (Block.segment json))) ∧
    (∀ e, Record.replayAll ((blockRecords blocks).foldl Record.newest {}).start
        (blockRecords blocks) = .error e →
      ∃ error, recoverSegments json (blocks.map (Block.segment json)) = .error error) := by
  obtain ⟨hok, herror⟩ := readSegments_written hwritable
    ((blockRecords blocks).foldl Record.newest {}).start
  rw [recoverSegments, newestCompactionCheckpoint_written hwritable hcheckpoint]
  constructor
  · intro state hstate hcluster hnode
    have hread := hok state hstate
    simp only [CompactionCheckpoint.start] at hread
    simp only [hread, hcluster, hnode, or_self, if_false]
  · intro e he
    obtain ⟨number, position, hposition⟩ := herror e he
    simp only [CompactionCheckpoint.start] at hposition
    exact ⟨_, by simp only [hposition]; rfl⟩

end Directory

end QuorumKV.Wal
