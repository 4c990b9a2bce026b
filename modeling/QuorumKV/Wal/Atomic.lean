import QuorumKV.Wal.Crash
import QuorumKV.Wal.Deletion

/-!
# Snapshot transactions

`InstallSnapshot` records its decision to discard the suffix twice, in the checkpoint
and in a truncation behind it.  The checkpoint alone decides: while its frame is
incomplete nothing has happened, and once it is complete neither the truncation nor
the deletion of covered segments adds anything.  A transaction that fails is cut off
where it began.

Two goroutines write them: `Compact` of a Snapshot captured earlier may come after
`InstallSnapshot` of a later one.
-/

namespace QuorumKV.Wal

open Foundation
open QuorumKV.Raft (Bytes)

/-! ## The frames of a transaction -/

def WAL.prepareCheckpoint (json : CheckpointJSON) (w : WAL) (c : CompactionCheckpoint) : WAL :=
  w.prepareRecordBatch (WAL.recordFrameSize (json.marshal c) +
    if c.truncateFrom ≠ 0 then WAL.recordFrameSize (putUint64 c.truncateFrom) else 0)

def transactionBytes (json : CheckpointJSON) (c : CompactionCheckpoint) : Bytes :=
  (checkpointRecords c).flatMap (Record.frame json)

def WAL.writing (json : CheckpointJSON) (w : WAL) (c : CompactionCheckpoint) (written : Nat) :
    WAL :=
  { w.prepareCheckpoint json c with
    contents := (w.prepareCheckpoint json c).contents ++ (transactionBytes json c).take written }

def reopenedState (json : CheckpointJSON) (directory : List Segment) (identity : Identity)
    (size : Nat) : Option RecoveredState :=
  (openWAL json directory identity size).toOption.map Prod.snd

section Outcome

variable {json : CheckpointJSON} {identity : Identity} {size : Nat}
  {directory other : List Segment}

theorem reopenedState_eq_some {recovered : RecoveredState} :
    reopenedState json directory identity size = some recovered ↔
      ∃ w, openWAL json directory identity size = .ok (w, recovered) := by
  rw [reopenedState]
  cases openWAL json directory identity size with
  | error e => simp [Except.toOption]
  | ok opened =>
      obtain ⟨w, state⟩ := opened
      simp [Except.toOption]

end Outcome

/-! ## The checkpoint decides -/

section Decides

variable {json : CheckpointJSON} {c : CompactionCheckpoint} {records : List Record}

end Decides

/-! ## Cuts and failures -/

section Cuts

variable {json : CheckpointJSON} {identity : Identity} {size : Nat} {w w' : WAL}
  {c : CompactionCheckpoint} {blocks : List Block} {front : List Record}

def Record.toFrame (json : CheckpointJSON) (record : Record) : Frame :=
  ⟨record.kind.toByte, record.payload json⟩

theorem framedSegment_toFrame (json : CheckpointJSON) (records : List Record) :
    framedSegment (records.map (Record.toFrame json)) = writtenSegment json records := by
  rw [framedSegment, writtenSegment, List.flatMap_map]
  rfl

theorem WAL.appendCheckpoint_ok (hok : w.appendCheckpoint json c = (w', none)) :
    w' = w.writing json c (transactionBytes json c).length ∧
      ∀ r ∈ checkpointRecords c, (r.toFrame json).Sized := by
  simp only [WAL.appendCheckpoint, WAL.appendRecordInSegment] at hok
  rw [WAL.writing, List.take_length, WAL.prepareCheckpoint, transactionBytes, checkpointRecords]
  split at hok
  · simp at hok
  next appended happended =>
    split at happended
    · simp at happended
    next hsize =>
      cases happended
      have hfirst : ((Record.checkpoint c).toFrame json).Sized := Nat.not_lt.mp hsize
      split at hok
      next hfrom =>
        split at hok
        · simp at hok
        next final hfinal =>
          split at hfinal
          · simp at hfinal
          next hsecond =>
            cases hfinal
            cases hok
            have htruncation : ((Record.truncation c.truncateFrom).toFrame json).Sized :=
              Nat.not_lt.mp hsecond
            refine ⟨?_, by simp [hfrom, hfirst, htruncation]⟩
            simp [hfrom, Record.frame, Record.kind, Record.payload]
      next hfrom =>
        cases hok
        refine ⟨?_, by simp [hfrom, hfirst]⟩
        simp [hfrom, Record.frame, Record.kind, Record.payload]

theorem Transaction.writing (h : Transaction json w c w' blocks front)
    (hok : w.appendCheckpoint json c = (w', none)) :
    (w.prepareCheckpoint json c).contents = writtenSegment json front ∧
      (w.prepareCheckpoint json c).segments = blocks.map (Block.segment json) := by
  obtain ⟨rfl, -⟩ := WAL.appendCheckpoint_ok hok
  have hcontents := h.holds.contents
  rw [WAL.writing, List.take_length, transactionBytes, writtenSegment, List.flatMap_append,
    ← List.append_assoc] at hcontents
  exact ⟨List.append_cancel_right hcontents, h.holds.segments⟩

theorem Transaction.accepted (h : Transaction json w c w' blocks front) :
    ∀ r ∈ blockRecords blocks ++ (front ++ [.checkpoint c]),
      r.Writable json ∧ r.CheckpointOK ∧ r.SubsumedBy c := by
  intro r hr
  have hmem : r ∈ blockRecords blocks ++ (front ++ checkpointRecords c) := by
    simp only [List.mem_append, checkpointRecords, List.mem_cons] at hr ⊢
    tauto
  exact ⟨h.holds.writable r hmem, (h.subsumed r hmem).2, (h.subsumed r hmem).1⟩

end Cuts

/-! ## Results -/

section Results

variable {json : CheckpointJSON} {identity : Identity} {size : Nat} {w w' opened : WAL}
  {fresh : RecoveredState} {operations : List Operation} {index term : UInt64} {retain : Bool}

theorem Trace.snapshotIndex_perform {t : Trace} {operation : Operation}
    (hregular : t.Regular operation) :
    t.live.snapshotIndex ≤ (t.perform operation).live.snapshotIndex := by
  cases operation with
  | compact index term => exact hregular.1
  | installSnapshot index term retain => exact hregular.1
  | _ => exact UInt64.le_rfl

theorem Trace.snapshotIndex_performAll {t : Trace} (hregular : t.Along Trace.Regular operations) :
    t.live.snapshotIndex ≤ (t.performAll operations).live.snapshotIndex := by
  induction operations generalizing t with
  | nil => exact UInt64.le_rfl
  | cons operation operations ih =>
      exact UInt64.le_trans (Trace.snapshotIndex_perform hregular.1) (ih hregular.2)

theorem Kept.newestCheckpoint {records : List Record} (h : Kept json w records) :
    newestCompactionCheckpoint json {} w.directory = .ok (newestOf records) := by
  obtain ⟨blocks, hdirectory, rfl, hwritable⟩ := h.stored.directory
  rw [hdirectory]
  exact newestCompactionCheckpoint_written hwritable h.accepted {}

/--
In every order of the calls in which no `Compact` comes after a later Snapshot, the
Snapshot index never decreases and the newest checkpoint carries it.  The directory
then opens at that position, unless a truncation stands in the way.
-/
theorem snapshot_position_monotone
    (hstrings : ValidUTF8 identity.clusterID ∧ ValidUTF8 identity.nodeID)
    (hregular : (Trace.initial identity).Along Trace.Regular operations)
    (hmonotone : (Trace.initial identity).Along Trace.Monotone operations)
    (hopen : openWAL json [] identity size = .ok (opened, fresh))
    (hrun : opened.performAll json operations = some w) :
    (∀ earlier later middle, operations = earlier ++ later →
      opened.performAll json earlier = some middle → middle.snapshotIndex ≤ w.snapshotIndex) ∧
    (∃ c, newestCompactionCheckpoint json {} w.directory = .ok c ∧
      c.snapshotIndex = w.snapshotIndex) ∧
    ∀ size', segmentHeaderSize + frameHeaderSize < size' →
      (Trace.initial identity).Along Trace.Meets operations →
      ((Trace.initial identity).performAll operations).HarmlessAt
        ((Trace.initial identity).performAll operations).live.snapshotIndex →
      ((Trace.initial identity).performAll operations).Permitted →
      ∃ w' recovered, openWAL json w.directory identity size' = .ok (w', recovered) ∧
        recovered.snapshotIndex = w.snapshotIndex ∧ recovered.snapshotTerm = w.snapshotTerm := by
  have hinitial := follows_initial hstrings hopen
  have hfollows := hinitial.performAll hregular hmonotone hrun
  refine ⟨?_, ?_, ?_⟩
  · rintro earlier later middle rfl hmiddle
    obtain ⟨hbefore, hafter⟩ := Trace.along_append.mp hregular
    have hreached := hinitial.performAll hbefore (Trace.along_append.mp hmonotone).1 hmiddle
    rw [hreached.snapshotIndex, hfollows.snapshotIndex, Trace.performAll, Trace.performAll,
      List.foldl_append]
    exact Trace.snapshotIndex_performAll hafter
  · obtain ⟨records, hkept⟩ := hfollows.kept
    exact ⟨_, hkept.newestCheckpoint, hkept.newest⟩
  · intro size' hsize hmeets hharmless hpermitted
    obtain ⟨records, hrep⟩ := (@represents_initial json True _ _ _ _ hstrings hopen).performAll
      hregular (fun _ => hmonotone) hmeets hrun
    obtain ⟨w', recovered, hok⟩ := hrep.opens hharmless hpermitted hsize
    obtain ⟨-, hrestores, -⟩ := hrep.restores hharmless hok
    rw [(Trace.initial identity).performAll_identity operations] at hok
    exact ⟨w', recovered, hok, hrestores.snapshotIndex.trans hrep.agrees.snapshotIndex.symm,
      hrestores.snapshotTerm.trans hrep.agrees.snapshotTerm.symm⟩

theorem snapshot_position_monotone_compacted : ∃ opened fresh w w' recovered,
    openWAL escapedCheckpoints [] sampleIdentity 1024 = .ok (opened, fresh) ∧
    opened.performAll escapedCheckpoints replacedBelow = some w ∧
    openWAL escapedCheckpoints w.directory sampleIdentity 1024 = .ok (w', recovered) ∧
    recovered.snapshotIndex = w.snapshotIndex := by
  obtain ⟨w, _, _, hrun⟩ := replacedBelow_reopens
  obtain ⟨opened, fresh, hopen, hperformed, -⟩ := closeAndReopen_some hrun
  obtain ⟨w', recovered, hok, hindex, -⟩ := (snapshot_position_monotone sampleIdentity_valid
    replacedBelow_regular (by decide) hopen hperformed).2.2 1024 (by decide)
      (by decide) (by decide) (by decide)
  exact ⟨opened, fresh, w, w', recovered, hopen, hperformed, hok, hindex⟩

/-- Two entries are applied and captured; then a Snapshot at index five is installed. -/
def installedMeanwhile : List Operation :=
  [.saveLogEntries [sampleEntry 1 1, sampleEntry 2 1], .saveCommitIndex 2,
    .installSnapshot 5 1 false]

/-- The goroutine's `Compact` takes the position back, and the directory no longer opens. -/
theorem snapshot_position_decreases : ∃ opened fresh before after,
    openWAL escapedCheckpoints [] sampleIdentity 1024 = .ok (opened, fresh) ∧
    opened.performAll escapedCheckpoints installedMeanwhile = some before ∧
    before.compact escapedCheckpoints 2 1 = (after, none) ∧
    before.snapshotIndex = 5 ∧ after.snapshotIndex = 2 ∧
    reopenedState escapedCheckpoints after.directory sampleIdentity 1024 = none := by
  obtain ⟨⟨w, outcome⟩, hrun, hsucceeds, hbefore, hafter, hrefused⟩ :
      ∃ closed ∈ closeAndReopen escapedCheckpoints sampleIdentity 1024 1024 installedMeanwhile,
        (closed.1.compact escapedCheckpoints 2 1).2 = none ∧ closed.1.snapshotIndex = 5 ∧
        (closed.1.compact escapedCheckpoints 2 1).1.snapshotIndex = 2 ∧
        reopenedState escapedCheckpoints (closed.1.compact escapedCheckpoints 2 1).1.directory
          sampleIdentity 1024 = none := by decide +kernel
  obtain ⟨opened, fresh, hopen, hperformed, -⟩ := closeAndReopen_some hrun
  exact ⟨opened, fresh, w, (w.compact escapedCheckpoints 2 1).1, hopen, hperformed,
    Prod.ext rfl hsucceeds, hbefore, hafter, hrefused⟩

end Results

end QuorumKV.Wal
