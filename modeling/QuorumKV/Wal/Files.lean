import QuorumKV.Wal.Durable

/-!
# The files hold the records

The invariant of an open WAL: its files hold the frames of a list of records
that represents the history so far, and its fields agree with the live state.
Each call of `wal.go` preserves it, roll-over and segment deletion included.
-/

namespace QuorumKV.Wal

open Foundation
open QuorumKV.Raft (Bytes)

/-! ## Appending records -/

structure WAL.SameState (w w' : WAL) : Prop where
  identity : w'.identity = w.identity
  lastLogIndex : w'.lastLogIndex = w.lastLogIndex
  commitIndex : w'.commitIndex = w.commitIndex
  hardState : w'.hardState = w.hardState
  snapshotIndex : w'.snapshotIndex = w.snapshotIndex
  snapshotTerm : w'.snapshotTerm = w.snapshotTerm

/-- The earlier files hold `blocks`, the active one `active`. -/
structure Holds (json : CheckpointJSON) (w : WAL) (blocks : List Block)
    (active : List Record) : Prop where
  segments : w.segments = blocks.map (Block.segment json)
  contents : w.contents = writtenSegment json active
  writable : ∀ r ∈ blockRecords blocks ++ active, r.Writable json

def AllPaired (blocks : List Block) (active : List Record) : Prop :=
  (∀ block ∈ blocks, Paired block.records) ∧ Paired active

def Stored (json : CheckpointJSON) (w : WAL) (records : List Record) : Prop :=
  ∃ blocks active, Holds json w blocks active ∧ AllPaired blocks active ∧
    blockRecords blocks ++ active = records

theorem Paired.append {left right : List Record} (hleft : Paired left)
    (hright : Paired right) : Paired (left ++ right) := by
  intro c hc hfrom
  rcases List.mem_append.mp hc with hc | hc
  · obtain ⟨hsucc, hmem⟩ := hleft c hc hfrom
    exact ⟨hsucc, List.mem_append.mpr (.inl hmem)⟩
  · obtain ⟨hsucc, hmem⟩ := hright c hc hfrom
    exact ⟨hsucc, List.mem_append.mpr (.inr hmem)⟩

theorem paired_plain {records : List Record} (hplain : ∀ r ∈ records, r.Plain) :
    Paired records :=
  fun c hc _ => absurd rfl (hplain _ hc c)

section Files

variable {json : CheckpointJSON} {w w' : WAL} {blocks : List Block}
  {active records : List Record}

theorem Holds.prepare (hholds : Holds json w blocks active) (hpaired : AllPaired blocks active)
    (size : Nat) :
    ∃ blocks' active', Holds json (w.prepareRecordBatch size) blocks' active' ∧
      AllPaired blocks' active' ∧
        blockRecords blocks' ++ active' = blockRecords blocks ++ active := by
  simp only [WAL.prepareRecordBatch]
  split
  · refine ⟨blocks ++ [⟨w.segment, active⟩], [], ?_, ?_, ?_⟩
    · refine ⟨?_, by simp [WAL.createSegment, writtenSegment], ?_⟩
      · simp [WAL.createSegment, WAL.directory, Block.segment, hholds.segments, hholds.contents]
      · simpa [blockRecords] using hholds.writable
    · refine ⟨?_, paired_plain (by simp)⟩
      intro block hblock
      rcases List.mem_append.mp hblock with hold | hnew
      · exact hpaired.1 block hold
      · rw [List.mem_singleton.mp hnew]
        exact hpaired.2
    · simp [blockRecords]
  · exact ⟨blocks, active, hholds, hpaired, rfl⟩

theorem Holds.appendInSegment (record : Record) (hholds : Holds json w blocks active)
    (hencodable : (record.payload json).length + 1 ≤ maxRecordSize → record.Encodable)
    (hok : w.appendRecordInSegment record.kind (record.payload json) = .ok w') :
    Holds json w' blocks (active ++ [record]) := by
  simp only [WAL.appendRecordInSegment] at hok
  split at hok
  · simp at hok
  · next hsize =>
      cases hok
      refine ⟨hholds.segments, ?_, ?_⟩
      · simp [hholds.contents, writtenSegment, Record.frame]
      · intro r hr
        rw [← List.append_assoc] at hr
        rcases List.mem_append.mp hr with hold | hnew
        · exact hholds.writable r hold
        · rw [List.mem_singleton.mp hnew]
          exact ⟨hencodable (Nat.not_lt.mp hsize), Nat.not_lt.mp hsize⟩

theorem Stored.append (record : Record) (hstored : Stored json w records)
    (hplain : record.Plain)
    (hencodable : (record.payload json).length + 1 ≤ maxRecordSize → record.Encodable)
    (hok : w.appendRecord record.kind (record.payload json) = .ok w') :
    Stored json w' (records ++ [record]) := by
  obtain ⟨blocks, active, hholds, hpaired, rfl⟩ := hstored
  simp only [WAL.appendRecord] at hok
  split at hok
  · simp at hok
  · obtain ⟨blocks', active', hholds', hpaired', heq⟩ :=
      hholds.prepare hpaired (WAL.recordFrameSize (record.payload json))
    refine ⟨blocks', active' ++ [record], hholds'.appendInSegment record hencodable hok, ?_, ?_⟩
    · exact ⟨hpaired'.1, hpaired'.2.append (paired_plain (by simpa using hplain))⟩
    · rw [← List.append_assoc, heq]

theorem Stored.congr (hstored : Stored json w records) (hsegments : w'.segments = w.segments)
    (hcontents : w'.contents = w.contents) : Stored json w' records := by
  obtain ⟨blocks, active, hholds, hpaired, heq⟩ := hstored
  exact ⟨blocks, active, ⟨hsegments.trans hholds.segments, hcontents.trans hholds.contents,
    hholds.writable⟩, hpaired, heq⟩

theorem entry_encodable (json : CheckpointJSON) (entry : LogEntry)
    (hsize : ((Record.entry entry).payload json).length + 1 ≤ maxRecordSize) :
    (Record.entry entry).Encodable := by
  have hlength := encodeEntryV3_length entry
  simp only [Record.payload, maxRecordSize] at hsize
  exact ⟨by omega, by omega⟩

theorem Stored.appendEntryRecords {entries : List LogEntry} (hstored : Stored json w records)
    (hok : w.appendEntryRecords entries = (w', none)) :
    Stored json w' (records ++ entries.map .entry) := by
  induction entries generalizing w records with
  | nil =>
      cases hok
      simpa using hstored
  | cons entry entries ih =>
      simp only [WAL.appendEntryRecords] at hok
      split at hok
      · simp at hok
      · next appended happended =>
          have hnext := hstored.append (.entry entry) (by simp [Record.Plain])
            (entry_encodable json entry) happended
          have hrest := ih (by exact hnext.congr rfl rfl) hok
          simpa using hrest

/-! ## Checkpoints and deletion -/

theorem removeCovered_written {covered : UInt64}
    (hwritable : ∀ r ∈ blockRecords blocks, r.Writable json) :
    WAL.removeCovered covered (blocks.map (Block.segment json)) =
      ((uncovered covered blocks).map (Block.segment json), none) := by
  induction blocks with
  | nil => rfl
  | cons block blocks ih =>
      simp only [blockRecords, List.flatMap_cons, List.mem_append] at hwritable
      simp only [List.map_cons, WAL.removeCovered, Block.segment]
      rw [segmentCoveredBySnapshot_written fun r hr => hwritable r (.inl hr)]
      simp only [ih fun r hr => hwritable r (.inr hr), uncovered, List.filter_cons]
      cases block.records.all (Record.coveredBy covered) <;> simp [Block.segment]

def checkpointRecords (c : CompactionCheckpoint) : List Record :=
  .checkpoint c :: if c.truncateFrom ≠ 0 then [.truncation c.truncateFrom] else []

theorem checkpointRecords_plain (c : CompactionCheckpoint) :
    ∀ r ∈ (if c.truncateFrom ≠ 0 then [Record.truncation c.truncateFrom] else []), r.Plain := by
  split <;> simp [Record.Plain]

theorem checkpointRecords_paired {c : CompactionCheckpoint}
    (htruncate : c.truncateFrom = 0 ∨ c.truncateFrom = c.snapshotIndex + 1) :
    Paired (checkpointRecords c) := by
  intro other hother hfrom
  have hsame : other = c := by
    simp only [checkpointRecords] at hother
    split at hother <;> simpa using hother
  subst hsame
  exact ⟨htruncate.resolve_left hfrom, by simp [checkpointRecords, hfrom]⟩

theorem Stored.appendCheckpoint {c : CompactionCheckpoint} (hstored : Stored json w records)
    (hstrings : c.ValidStrings)
    (htruncate : c.truncateFrom = 0 ∨ c.truncateFrom = c.snapshotIndex + 1)
    (hok : w.appendCheckpoint json c = (w', none)) :
    ∃ blocks front, Holds json w' blocks (front ++ checkpointRecords c) ∧
      AllPaired blocks (front ++ checkpointRecords c) ∧ blockRecords blocks ++ front = records := by
  obtain ⟨blocks, active, hholds, hpaired, rfl⟩ := hstored
  simp only [WAL.appendCheckpoint] at hok
  obtain ⟨blocks', front, hfront, hpaired', heq⟩ := hholds.prepare hpaired
    (WAL.recordFrameSize (json.marshal c) +
      if c.truncateFrom ≠ 0 then WAL.recordFrameSize (putUint64 c.truncateFrom) else 0)
  have hpairs : AllPaired blocks' (front ++ checkpointRecords c) :=
    ⟨hpaired'.1, hpaired'.2.append (checkpointRecords_paired htruncate)⟩
  split at hok
  · simp at hok
  · next appended happended =>
      have hmarked := hfront.appendInSegment (.checkpoint c) (fun _ => hstrings) happended
      split at hok
      · next hfrom =>
          split at hok
          · simp at hok
          · next final hfinal =>
              cases hok
              have hcut :=
                hmarked.appendInSegment (.truncation c.truncateFrom) (fun _ => trivial) hfinal
              refine ⟨blocks', front, ?_, hpairs, heq⟩
              simpa [checkpointRecords, hfrom] using hcut
      · next hfrom =>
          cases hok
          refine ⟨blocks', front, ?_, hpairs, heq⟩
          simpa [checkpointRecords, hfrom] using hmarked

end Files

end QuorumKV.Wal
