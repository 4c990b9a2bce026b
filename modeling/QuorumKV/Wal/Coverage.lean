import QuorumKV.Wal.Reach

/-!
# Covered segments

A checkpoint stands for everything before it: a replay that starts at it learns
nothing from an older hard state, commit index or identity, and skips the entries
and truncations at or below its Snapshot index.  A segment the Snapshot covers
holds nothing else, so whether it is still there makes no difference.
-/

namespace QuorumKV.Wal

open Foundation
open QuorumKV.Raft (Bytes)

/-- The later checkpoint stands for whatever the earlier one stands for. -/
structure CompactionCheckpoint.Below (c later : CompactionCheckpoint) : Prop where
  identity : c.identity = later.identity
  hardState : HardState.Follows c.hardState later.hardState
  commitIndex : c.commitIndex ≤ later.commitIndex
  snapshotIndex : c.snapshotIndex ≤ later.snapshotIndex

def Record.SubsumedBy (c : CompactionCheckpoint) : Record → Prop
  | .clusterIdentity id => id = c.identity.clusterID
  | .nodeIdentity id => id = c.identity.nodeID
  | .hardState h => HardState.Follows h c.hardState
  | .entry _ => True
  | .truncation first => first ≠ 0
  | .commit index => index ≤ c.commitIndex
  | .checkpoint other => other.identity = c.identity ∧ other.snapshotIndex ≤ c.snapshotIndex

theorem Record.SubsumedBy.mono {c later : CompactionCheckpoint} {record : Record}
    (h : record.SubsumedBy c) (hbelow : c.Below later) : record.SubsumedBy later := by
  cases record with
  | clusterIdentity id => exact h.trans (congrArg _ hbelow.identity)
  | nodeIdentity id => exact h.trans (congrArg _ hbelow.identity)
  | hardState state => exact HardState.Follows.trans h hbelow.hardState
  | entry entry => trivial
  | truncation first => exact h
  | commit index => exact UInt64.le_trans h hbelow.commitIndex
  | checkpoint other =>
      exact ⟨h.1.trans hbelow.identity, UInt64.le_trans h.2 hbelow.snapshotIndex⟩

/-- The state of a replay that began at a checkpoint and met only records it subsumes. -/
structure CompactionCheckpoint.Resumed (c : CompactionCheckpoint) (state : RecoveredState) :
    Prop where
  usable : state.Usable
  identity : state.identity = c.identity
  hardState : state.hardState = c.hardState
  commitIndex : state.commitIndex = c.commitIndex
  snapshotIndex : state.snapshotIndex = c.snapshotIndex

section Replay

variable {c : CompactionCheckpoint} {state state' : RecoveredState} {record : Record}
  {records others : List Record}

theorem CompactionCheckpoint.Resumed.step (h : c.Resumed state) (hsubsumed : record.SubsumedBy c)
    (hok : record.replay state = .ok state') : c.Resumed state' := by
  have hraises := Record.replay_raises h.usable hok
  refine ⟨hraises.usable, ?_, ?_, ?_, hraises.snapshotIndex.trans h.snapshotIndex⟩
  · rw [(Record.replay_ok hok).2, h.identity]
    rw [h.identity]
    cases record with
    | checkpoint other => exact hsubsumed.1
    | clusterIdentity id => exact hsubsumed
    | nodeIdentity id => exact hsubsumed
    | _ => trivial
  · rw [(Record.replay_ok hok).1, h.hardState]
    cases record with
    | hardState older => exact Record.hardStep_below hsubsumed
    | _ => rfl
  · have hcommit := hraises.commitIndex
    have hle : record.commitIndex ≤ c.commitIndex.toNat := by
      cases record with
      | commit index => exact UInt64.le_iff_toNat_le.mp hsubsumed
      | _ => exact Nat.zero_le _
    rw [h.commitIndex] at hcommit
    apply UInt64.toNat_inj.mp
    omega

theorem CompactionCheckpoint.Resumed.replayAll (h : c.Resumed state)
    (hsubsumed : ∀ r ∈ records, r.SubsumedBy c)
    (hok : Record.replayAll state records = .ok state') : c.Resumed state' := by
  induction records generalizing state with
  | nil =>
      cases hok
      exact h
  | cons record records ih =>
      rw [Record.replayAll] at hok
      split at hok
      · simp at hok
      next next hnext =>
        exact ih (h.step (hsubsumed record (by simp)) hnext)
          (fun r hr => hsubsumed r (by simp [hr])) hok

theorem CompactionCheckpoint.Resumed.covered (h : c.Resumed state)
    (hnamed : c.identity.clusterID ≠ [] ∧ c.identity.nodeID ≠ [])
    (hsubsumed : record.SubsumedBy c) (haccepted : record.CheckpointOK)
    (hcovered : record.coveredBy c.snapshotIndex)
    (hcommit : ∀ index, record = .commit index → index.toNat ≤ state.last)
    (hcheckpoint : ∀ other, record = .checkpoint other → other.truncateFrom ≠ 0 →
      other.snapshotIndex ≠ c.snapshotIndex) :
    record.replay state = .ok state := by
  cases record with
  | clusterIdentity id =>
      rw [Record.replay, RecoveredState.applyClusterIdentity, h.identity, if_pos hnamed.1,
        if_neg (not_not.mpr (Eq.symm hsubsumed))]
  | nodeIdentity id =>
      rw [Record.replay, RecoveredState.applyNodeIdentity, h.identity, if_neg hnamed.1,
        if_pos hnamed.2, if_neg (not_not.mpr (Eq.symm hsubsumed))]
  | hardState older =>
      rw [Record.replay, h.identity, if_neg hnamed.2, state.applyHardState_eq, h.hardState,
        Record.hardStep_below hsubsumed, ← h.hardState]
  | entry entry =>
      have hle : entry.index ≤ c.snapshotIndex := of_decide_eq_true hcovered
      rw [Record.replay, RecoveredState.appendEntry, h.snapshotIndex, if_pos hle]
  | truncation first =>
      have hle : first ≤ c.snapshotIndex := of_decide_eq_true hcovered
      rw [Record.replay, RecoveredState.applyTruncation, h.snapshotIndex, if_neg hsubsumed,
        if_pos hle]
  | commit index =>
      rw [Record.replay, RecoveredState.applyCommitIndex]
      split
      · rfl
      next hlow =>
        have hlast := h.usable.lastIndex
        have hreached := hcommit index rfl
        have hle : index ≤ c.commitIndex := hsubsumed
        rw [h.commitIndex, UInt64.not_lt] at hlow
        rw [if_neg (by rw [gt_iff_lt, UInt64.not_lt, UInt64.le_iff_toNat_le]; omega),
          UInt64.le_antisymm hle hlow, ← h.commitIndex]
  | checkpoint other =>
      rw [Record.replay, RecoveredState.applyCheckpoint, h.identity, h.snapshotIndex,
        if_neg (not_not.mpr hsubsumed.1), if_neg (UInt64.not_lt.mpr hsubsumed.2)]
      split
      next hfrom =>
        obtain ⟨-, -, -, -, -, htruncate⟩ := haccepted
        rw [if_neg (not_not.mpr (htruncate.resolve_left hfrom)),
          if_neg (hcheckpoint other rfl hfrom)]
      · rfl

theorem CompactionCheckpoint.Resumed.replayAll_covered {P : Nat → Prop} (h : c.Resumed state)
    (hnamed : c.identity.clusterID ≠ [] ∧ c.identity.nodeID ≠ [])
    (hsubsumed : ∀ r ∈ records, r.SubsumedBy c) (haccepted : ∀ r ∈ records, r.CheckpointOK)
    (hcovered : ∀ r ∈ records, r.coveredBy c.snapshotIndex) (hpaired : Paired records)
    (hreaches : Reaches c.snapshotIndex P state.last (records ++ others)) :
    Record.replayAll state records = .ok state := by
  have hcheckpoint : ∀ other, .checkpoint other ∈ records → other.truncateFrom ≠ 0 →
      other.snapshotIndex ≠ c.snapshotIndex := by
    intro other hmem hfrom heq
    exact absurd (hpaired.snapshotIndex_lt hcovered hmem hfrom) (heq ▸ UInt64.lt_irrefl _)
  clear hpaired
  induction records with
  | nil => rfl
  | cons record records ih =>
      have hfirst := h.covered hnamed (hsubsumed record (by simp)) (haccepted record (by simp))
        (hcovered record (by simp)) hreaches.1 (fun other ho => hcheckpoint other (by simp [ho]))
      have hreach := Record.reach_covered state.last (hcovered record (by simp)) UInt64.le_rfl
        (fun other ho => hcheckpoint other (by simp [ho]))
      rw [Record.replayAll, hfirst]
      exact ih (fun r hr => hsubsumed r (by simp [hr])) (fun r hr => haccepted r (by simp [hr]))
        (fun r hr => hcovered r (by simp [hr])) (hreaches.2 _ hreach)
        (fun other ho => hcheckpoint other (by simp [ho]))

end Replay

/-! ## Directories without some covered segments -/

section Directory

variable {json : CheckpointJSON} {c : CompactionCheckpoint} {state : RecoveredState}
  {blocks : List Block} {P : Nat → Prop}

theorem readSegments_state (json : CheckpointJSON) (state : RecoveredState) (segment : Segment)
    (segments : List Segment) :
    (readSegments json state (segment :: segments)).map Prod.fst =
      ((readSegment json segment.contents segments.isEmpty state).mapError
        (RecoverError.segment segment.number)).bind fun read =>
          (readSegments json read.1 segments).map Prod.fst := by
  rw [readSegments]
  cases readSegment json segment.contents segments.isEmpty state with
  | error e => rfl
  | ok read =>
      simp only [Except.mapError, Except.bind]
      cases readSegments json read.1 segments <;> rfl

/-- The files of `blocks` and one more, read after a checkpoint that subsumes their records. -/
theorem readSegments_filter (keep : Block → Bool) (last : Segment) (h : c.Resumed state)
    (hnamed : c.identity.clusterID ≠ [] ∧ c.identity.nodeID ≠ [])
    (hwritable : ∀ r ∈ blockRecords blocks, r.Writable json)
    (hsubsumed : ∀ r ∈ blockRecords blocks, r.SubsumedBy c)
    (haccepted : ∀ r ∈ blockRecords blocks, r.CheckpointOK)
    (hpaired : ∀ block ∈ blocks, Paired block.records)
    (hcovered : ∀ block ∈ blocks, keep block = false →
      ∀ r ∈ block.records, r.coveredBy c.snapshotIndex)
    (hreaches : Reaches c.snapshotIndex P state.last (blockRecords blocks)) :
    (readSegments json state ((blocks.filter keep).map (Block.segment json) ++ [last])).map
        Prod.fst =
      (readSegments json state (blocks.map (Block.segment json) ++ [last])).map Prod.fst := by
  induction blocks generalizing state with
  | nil => rfl
  | cons block blocks ih =>
      rw [blockRecords, List.flatMap_cons] at hwritable hsubsumed haccepted hreaches
      simp only [List.mem_append] at hwritable hsubsumed haccepted
      obtain ⟨hok, herror⟩ :=
        readSegment_written (fun r hr => hwritable r (.inl hr)) false state
      have hrest : ∀ next, c.Resumed next →
          Reaches c.snapshotIndex P next.last (blockRecords blocks) → _ :=
        fun next hnext hreached => ih hnext (fun r hr => hwritable r (.inr hr))
          (fun r hr => hsubsumed r (.inr hr)) (fun r hr => haccepted r (.inr hr))
          (fun b hb => hpaired b (by simp [hb])) (fun b hb => hcovered b (by simp [hb])) hreached
      have hempty : ∀ others : List Segment, (others ++ [last]).isEmpty = false := by simp
      cases hkeep : keep block with
      | false =>
          -- The deleted file is read without effect.
          have hsame := h.replayAll_covered hnamed (fun r hr => hsubsumed r (.inl hr))
            (fun r hr => haccepted r (.inl hr)) (hcovered block (by simp) hkeep)
            (hpaired block (by simp)) hreaches
          have hnext := hreaches.uncover (hpaired block (by simp))
            (hcovered block (by simp) hkeep) UInt64.le_rfl
          rw [List.filter_cons_of_neg (by simp [hkeep]), hrest state h hnext, List.map_cons,
            List.cons_append, readSegments_state, hempty, Block.segment, hok state hsame]
          rfl
      | true =>
          rw [List.filter_cons_of_pos hkeep, List.map_cons, List.map_cons, List.cons_append,
            List.cons_append, readSegments_state, readSegments_state, hempty, hempty,
            Block.segment]
          cases hreplay : Record.replayAll state block.records with
          | error e =>
              obtain ⟨position, hposition⟩ := herror e hreplay
              rw [hposition]
              rfl
          | ok next =>
              obtain ⟨-, -, -, -, hreached⟩ := Record.replayAll_reach h.usable hreplay
              rw [h.snapshotIndex] at hreached
              rw [hok next hreplay]
              exact hrest next (h.replayAll (fun r hr => hsubsumed r (.inl hr)) hreplay)
                (hreaches.after hreached)

def recoveredState (json : CheckpointJSON) (directory : List Segment) :
    Except RecoverError RecoveredState :=
  (recoverSegments json directory).map Prod.fst

theorem recoveredState_eq {directory : List Segment}
    (hnewest : newestCompactionCheckpoint json {} directory = .ok c) :
    recoveredState json directory =
      ((readSegments json c.start directory).map Prod.fst).bind fun state =>
        if state.identity.clusterID = [] ∨ state.identity.nodeID = [] then
          .error .incompleteIdentity
        else .ok state := by
  rw [recoveredState, recoverSegments, hnewest]
  simp only [CompactionCheckpoint.start]
  cases readSegments json _ directory with
  | error e => rfl
  | ok read =>
      by_cases hempty : read.1.identity.clusterID = [] ∨ read.1.identity.nodeID = []
      · simp [Except.map, Except.bind, hempty]
      · simp [Except.map, Except.bind, hempty]

/-- Deleting covered files changes nothing when the last one ends with the checkpoint. -/
theorem recoveredState_filter {number : Nat} {front others : List Record} (keep : Block → Bool)
    (husable : c.snapshotIndex ≤ c.commitIndex)
    (hnamed : c.identity.clusterID ≠ [] ∧ c.identity.nodeID ≠ [])
    (hplain : ∀ r ∈ others, r.Plain)
    (hwritable : ∀ r ∈ blockRecords blocks ++ (front ++ .checkpoint c :: others),
      r.Writable json)
    (hsubsumed : ∀ r ∈ blockRecords blocks, r.SubsumedBy c)
    (haccepted : ∀ r ∈ blockRecords blocks ++ (front ++ .checkpoint c :: others),
      r.CheckpointOK)
    (hpaired : ∀ block ∈ blocks, Paired block.records)
    (hcovered : ∀ block ∈ blocks, keep block = false →
      ∀ r ∈ block.records, r.coveredBy c.snapshotIndex)
    (hreaches : Reaches c.snapshotIndex P c.snapshotIndex.toNat (blockRecords blocks)) :
    recoveredState json ((blocks.filter keep).map (Block.segment json) ++
        [⟨number, writtenSegment json (front ++ .checkpoint c :: others)⟩]) =
      recoveredState json (blocks.map (Block.segment json) ++
        [⟨number, writtenSegment json (front ++ .checkpoint c :: others)⟩]) := by
  have hnewest : ∀ kept : List Block, kept.Sublist blocks →
      newestCompactionCheckpoint json {} (kept.map (Block.segment json) ++
        [⟨number, writtenSegment json (front ++ .checkpoint c :: others)⟩]) = .ok c := by
    intro kept hkept
    have hsubset : ∀ r ∈ blockRecords (kept ++ [⟨number, front ++ .checkpoint c :: others⟩]),
        r ∈ blockRecords blocks ++ (front ++ .checkpoint c :: others) := by
      intro r hr
      rw [blockRecords, List.flatMap_append, List.flatMap_singleton] at hr
      rcases List.mem_append.mp hr with hr | hr
      · obtain ⟨block, hblock, hrecord⟩ := List.mem_flatMap.mp hr
        exact List.mem_append.mpr (.inl (List.mem_flatMap.mpr
          ⟨block, hkept.subset hblock, hrecord⟩))
      · exact List.mem_append.mpr (.inr hr)
    have hfound := newestCompactionCheckpoint_written (fun r hr => hwritable r (hsubset r hr))
      (fun r hr => haccepted r (hsubset r hr)) {}
    have hlast := newestOf_append_checkpoint (blockRecords kept ++ front) others c hplain
    rw [List.map_append, List.map_singleton, blockRecords, List.flatMap_append,
      List.flatMap_singleton, ← List.append_assoc] at hfound
    rw [newestOf, blockRecords] at hlast
    exact hfound.trans (congrArg _ hlast)
  have hstart : c.Resumed c.start :=
    ⟨⟨trivial, c.snapshotIndex.toNat_lt, husable⟩, rfl, rfl, rfl, rfl⟩
  rw [recoveredState_eq (hnewest _ List.filter_sublist),
    recoveredState_eq (hnewest _ (List.Sublist.refl _)),
    readSegments_filter keep _ hstart hnamed
      (fun r hr => hwritable r (List.mem_append.mpr (.inl hr))) hsubsumed
      (fun r hr => haccepted r (List.mem_append.mpr (.inl hr))) hpaired hcovered hreaches]

end Directory

end QuorumKV.Wal
