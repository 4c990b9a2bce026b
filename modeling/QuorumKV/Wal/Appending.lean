import QuorumKV.Wal.Usable

/-!
# Appending after an open

An opened WAL can be reopened, and what is appended to it is recovered after what
was there: the frames only grow, and the newest checkpoint stays the newest.  The
argument holds for any directory that opened, whatever left it behind, so it
covers clean histories without Snapshots as well as what is appended after a
crash was repaired.
-/

namespace QuorumKV.Wal

open Foundation
open QuorumKV.Raft (Bytes)

/-! ## The files of an open WAL -/

/-- The earlier files hold `earlier`, the active one `active`. -/
structure WAL.Frames (w : WAL) (earlier active : List Frame) : Prop where
  segments : Framed w.segments earlier
  sized : ∀ f ∈ active, f.Sized
  contents : w.contents = framedSegment active

section Frames

variable {json : CheckpointJSON} {w w' : WAL} {earlier active frames : List Frame}

theorem WAL.Frames.directory (h : w.Frames earlier active) :
    Framed w.directory (earlier ++ active) := by
  have hactive := Framed.single w.segment h.sized
  rw [← h.contents] at hactive
  exact h.segments.append hactive

theorem WAL.Frames.congr (h : w.Frames earlier active) (hsegments : w'.segments = w.segments)
    (hcontents : w'.contents = w.contents) : w'.Frames earlier active :=
  ⟨hsegments ▸ h.segments, h.sized, hcontents.trans h.contents⟩

theorem Framed.split {left right : List Segment} (h : Framed (left ++ right) frames) :
    ∃ before after, Framed left before ∧ Framed right after ∧ before ++ after = frames := by
  induction left generalizing frames with
  | nil => exact ⟨[], frames, .nil, h, rfl⟩
  | cons segment left ih =>
      obtain _ | ⟨hsized, hrest⟩ := h
      obtain ⟨before, after, hbefore, hafter, rfl⟩ := ih hrest
      exact ⟨_, after, .cons hsized hbefore, hafter, List.append_assoc ..⟩

theorem Framed.split_last {segments : List Segment} {last : Segment}
    (h : Framed (segments ++ [last]) frames) :
    ∃ earlier active, Framed segments earlier ∧ (∀ f ∈ active, f.Sized) ∧
      last.contents = framedSegment active ∧ earlier ++ active = frames := by
  obtain ⟨earlier, active, hearlier, hactive, rfl⟩ := h.split
  obtain _ | ⟨hsized, hrest⟩ := hactive
  cases hrest
  exact ⟨earlier, _, hearlier, hsized, rfl, by simp⟩

theorem Framed.sublist {segments others : List Segment} (h : Framed segments frames)
    (hsublist : others.Sublist segments) : ∃ kept, Framed others kept := by
  induction h generalizing others with
  | nil =>
      rw [List.sublist_nil.mp hsublist]
      exact ⟨[], .nil⟩
  | cons hsized _ ih =>
      rcases List.sublist_cons_iff.mp hsublist with hrest | ⟨rest, rfl, hrest⟩
      · exact ih hrest
      · obtain ⟨kept, hkept⟩ := ih hrest
        exact ⟨_, .cons hsized hkept⟩

theorem WAL.Frames.prepare (h : w.Frames earlier active) (size : Nat) :
    ((w.prepareRecordBatch size).segment = w.segment ∧
        (w.prepareRecordBatch size).Frames earlier active) ∨
      (w.prepareRecordBatch size).Frames (earlier ++ active) [] := by
  rw [WAL.prepareRecordBatch]
  split
  · refine .inr ⟨h.directory, by simp, ?_⟩
    simp [WAL.createSegment, framedSegment]
  · exact .inl ⟨rfl, h⟩

theorem WAL.Frames.appendInSegment {kind : RecordType} {payload : Bytes}
    (h : w.Frames earlier active) (hok : w.appendRecordInSegment kind payload = .ok w') :
    w'.segment = w.segment ∧ w'.Frames earlier (active ++ [⟨kind.toByte, payload⟩]) := by
  rw [WAL.appendRecordInSegment] at hok
  split at hok
  · simp at hok
  next hsize =>
    cases hok
    refine ⟨rfl, h.segments, ?_, ?_⟩
    · intro f hf
      rcases List.mem_append.mp hf with hold | hnew
      · exact h.sized f hold
      · rw [List.mem_singleton.mp hnew]
        exact Nat.not_lt.mp hsize
    · simp [h.contents, framedSegment, Frame.bytes]

theorem WAL.Frames.append {kind : RecordType} {payload : Bytes} (h : w.Frames earlier active)
    (hok : w.appendRecord kind payload = .ok w') :
    (w'.segment = w.segment ∧ w'.Frames earlier (active ++ [⟨kind.toByte, payload⟩])) ∨
      w'.Frames (earlier ++ active) [⟨kind.toByte, payload⟩] := by
  rw [WAL.appendRecord] at hok
  split at hok
  · simp at hok
  · rcases h.prepare (WAL.recordFrameSize payload) with ⟨hsegment, hkeep⟩ | hroll
    · obtain ⟨hsegment', hframes⟩ := hkeep.appendInSegment hok
      exact .inl ⟨hsegment'.trans hsegment, hframes⟩
    · exact .inr (hroll.appendInSegment hok).2

def WAL.Written (w : WAL) : Prop := ∃ earlier active, w.Frames earlier active

theorem WAL.Written.append {kind : RecordType} {payload : Bytes} (h : w.Written)
    (hok : w.appendRecord kind payload = .ok w') : w'.Written := by
  obtain ⟨earlier, active, hframes⟩ := h
  rcases hframes.append hok with ⟨-, hkeep⟩ | hroll
  · exact ⟨_, _, hkeep⟩
  · exact ⟨_, _, hroll⟩

theorem WAL.Written.congr (h : w.Written) (hsegments : w'.segments = w.segments)
    (hcontents : w'.contents = w.contents) : w'.Written := by
  obtain ⟨earlier, active, hframes⟩ := h
  exact ⟨earlier, active, hframes.congr hsegments hcontents⟩

theorem WAL.Written.appendEntryRecords {entries : List LogEntry} (h : w.Written)
    (hok : w.appendEntryRecords entries = (w', none)) : w'.Written := by
  induction entries generalizing w with
  | nil =>
      cases hok
      exact h
  | cons entry entries ih =>
      rw [WAL.appendEntryRecords] at hok
      split at hok
      · simp at hok
      next appended happended => exact ih (by exact (h.append happended).congr rfl rfl) hok

theorem removeCovered_sublist (covered : UInt64) (segments : List Segment) :
    (WAL.removeCovered covered segments).1.Sublist segments := by
  induction segments with
  | nil => exact List.Sublist.refl _
  | cons segment segments ih =>
      rw [WAL.removeCovered]
      split
      · exact List.Sublist.refl _
      · simp only
        split
        · exact ih.cons segment
        · exact ih.cons_cons segment

theorem WAL.Written.appendCheckpoint {c : CompactionCheckpoint} (h : w.Written)
    (hok : w.appendCheckpoint json c = (w', none)) : w'.Written := by
  obtain ⟨earlier, active, hframes⟩ := h
  simp only [WAL.appendCheckpoint] at hok
  obtain ⟨earlier', active', hprepared⟩ : (w.prepareRecordBatch
      (WAL.recordFrameSize (json.marshal c) +
        if c.truncateFrom ≠ 0 then WAL.recordFrameSize (putUint64 c.truncateFrom) else 0)).Written :=
    (hframes.prepare _).elim (fun hkeep => ⟨_, _, hkeep.2⟩) fun hroll => ⟨_, _, hroll⟩
  split at hok
  · simp at hok
  next marked hmarked =>
    have hcheckpoint := (hprepared.appendInSegment hmarked).2
    split at hok
    · split at hok
      · simp at hok
      next truncated htruncated =>
        cases hok
        exact ⟨_, _, (hcheckpoint.appendInSegment htruncated).2⟩
    · cases hok
      exact ⟨_, _, hcheckpoint⟩

theorem WAL.Written.installSnapshotCheckpoint {index term commit from' : UInt64} (h : w.Written)
    (hok : w.installSnapshotCheckpoint json index term commit from' = (w', none)) :
    w'.Written := by
  obtain ⟨appended, happended, hsegments, hcontents, -⟩ := WAL.installSnapshotCheckpoint_ok hok
  obtain ⟨earlier, active, hframes⟩ := h.appendCheckpoint happended
  obtain ⟨kept, hkept⟩ := hframes.segments.sublist (removeCovered_sublist index appended.segments)
  exact ⟨kept, active, hsegments ▸ hkept, hframes.sized, hcontents.trans hframes.contents⟩

theorem WAL.Frames.reopened {identity : Identity} {size : Nat} {recovered : RecoveredState}
    (h : w.Frames earlier active)
    (hopen : openWAL json w.directory identity size = .ok (w', recovered)) :
    FramesRecover json (earlier ++ active) recovered ∧
      w' = resumeWAL identity size recovered w.segments ⟨w.segment, w.contents⟩ := by
  obtain ⟨-, -, -, ⟨hempty, -⟩ | ⟨files, last, hrecover, rfl⟩⟩ := openWAL_ok hopen
  · simp [WAL.directory] at hempty
  · obtain ⟨hfiles, hrecovers⟩ := (recoverSegments_framed h.directory _).mp hrecover
    obtain ⟨rfl, hlast⟩ := List.append_inj' hfiles rfl
    rw [List.singleton_inj] at hlast
    exact ⟨hrecovers, by rw [hlast]⟩

theorem WAL.Written.perform {operation : Operation} (h : w.Written)
    (hok : w.perform json operation = some w') : w'.Written := by
  cases operation with
  | saveHardState state =>
      obtain ⟨appended, happended, rfl⟩ :=
        WAL.appendThen_ok (Outcome.succeeded_eq_some.mp hok)
      exact (h.append happended).congr rfl rfl
  | saveLogEntries entries =>
      obtain ⟨-, appended, happended, rfl⟩ :=
        WAL.saveLogEntries_ok (Outcome.succeeded_eq_some.mp hok)
      exact (h.appendEntryRecords happended).congr rfl rfl
  | truncateLog first =>
      obtain ⟨-, -, -, appended, happended, rfl⟩ :=
        WAL.truncateLog_ok (Outcome.succeeded_eq_some.mp hok)
      exact (h.append happended).congr rfl rfl
  | saveCommitIndex index =>
      obtain ⟨-, -, ⟨-, rfl⟩ | ⟨-, appended, happended, rfl⟩⟩ :=
        WAL.saveCommitIndex_ok (Outcome.succeeded_eq_some.mp hok)
      · exact h
      · exact (h.append happended).congr rfl rfl
  | compact index term =>
      obtain ⟨-, -, hinstalled⟩ := WAL.compact_ok (Outcome.succeeded_eq_some.mp hok)
      exact h.installSnapshotCheckpoint hinstalled
  | installSnapshot index term retain =>
      obtain ⟨-, -, -, -, installed, hinstalled, rfl⟩ :=
        WAL.installSnapshot_ok (Outcome.succeeded_eq_some.mp hok)
      exact (h.installSnapshotCheckpoint hinstalled).congr rfl rfl
  | reopen size =>
      rw [WAL.perform] at hok
      split at hok
      · simp at hok
      next opened recovered hopen =>
        cases hok
        obtain ⟨earlier, active, hframes⟩ := h
        rw [(hframes.reopened hopen).2]
        exact ⟨earlier, active, hframes.congr rfl rfl⟩

theorem WAL.Written.performAll {operations : List Operation} (h : w.Written)
    (hok : w.performAll json operations = some w') : w'.Written := by
  induction operations generalizing w with
  | nil =>
      cases hok
      exact h
  | cons operation operations ih =>
      rw [WAL.performAll, Option.bind_eq_some_iff] at hok
      obtain ⟨middle, hfirst, hrest⟩ := hok
      exact ih (h.perform hfirst) hrest

end Frames

/-! ## What an open WAL recovers to -/

/-- Closing the WAL and opening its directory gives `live`. -/
structure Leaves (json : CheckpointJSON) (w : WAL) (live : RecoveredState) : Prop where
  frames : ∃ earlier active, w.Frames earlier active ∧ FramesRecover json (earlier ++ active) live
  usable : live.Usable
  named : blank live.identity.clusterID = false ∧ blank live.identity.nodeID = false

/-- And the counters of the open WAL say the same. -/
structure Recovers (json : CheckpointJSON) (w : WAL) (live : RecoveredState) : Prop extends
    Leaves json w live where
  agrees : w.Agrees live

section Recovers

variable {json : CheckpointJSON} {w w' : WAL} {live live' recovered : RecoveredState}
  {directory : List Segment} {identity : Identity} {size : Nat}

theorem openWAL_new (hopen : openWAL json [] identity size = .ok (w, recovered)) :
    w.Agrees { identity := identity } ∧ ∃ earlier active, w.Frames earlier active ∧
      active ≠ [] ∧ earlier ++ active = [⟨RecordType.clusterIdentity.toByte, identity.clusterID⟩,
        ⟨RecordType.nodeIdentity.toByte, identity.nodeID⟩] := by
  obtain ⟨-, -, -, first, hfirst, hsecond⟩ := openWAL_created hopen
  have hempty : ({ identity := identity, segmentSize := size } : WAL).Frames [] [] :=
    ⟨.nil, by simp, by simp [framedSegment]⟩
  have hone : first.Frames [] [⟨RecordType.clusterIdentity.toByte, identity.clusterID⟩] :=
    (hempty.append hfirst).elim And.right id
  have htwo := hone.append hsecond
  obtain ⟨_, _, _, rfl⟩ := WAL.appendRecord_files hfirst
  obtain ⟨_, _, _, rfl⟩ := WAL.appendRecord_files hsecond
  refine ⟨⟨rfl, rfl, rfl, rfl, rfl⟩, ?_⟩
  rcases htwo with ⟨-, hkeep⟩ | hroll
  · exact ⟨_, _, hkeep, by simp, rfl⟩
  · exact ⟨_, _, hroll, by simp, rfl⟩

theorem framesRecover_new (json : CheckpointJSON)
    (hnamed : identity.clusterID ≠ [] ∧ identity.nodeID ≠ []) :
    FramesRecover json [⟨RecordType.clusterIdentity.toByte, identity.clusterID⟩,
      ⟨RecordType.nodeIdentity.toByte, identity.nodeID⟩] { identity := identity } := by
  refine ⟨⟨{}, rfl, ?_⟩, hnamed⟩
  simp [replayFrames, applyRecord, CompactionCheckpoint.start,
    RecoveredState.applyClusterIdentity, RecoveredState.applyNodeIdentity, hnamed.1]

theorem recovers_of_open (hopen : openWAL json directory identity size = .ok (w, recovered)) :
    Recovers json w recovered := by
  obtain ⟨hnamed, -, hidentity, ⟨rfl, rfl⟩ | ⟨files, last, hrecover, rfl⟩⟩ := openWAL_ok hopen
  · obtain ⟨hagrees, earlier, active, hframes, -, heq⟩ := openWAL_new hopen
    refine ⟨⟨⟨earlier, active, hframes, ?_⟩, ⟨trivial, Nat.two_pow_pos 64, UInt64.le_rfl⟩,
      hnamed⟩, hagrees⟩
    rw [heq]
    exact framesRecover_new json ⟨blank_false hnamed.1, blank_false hnamed.2⟩
  · obtain ⟨frames, hframed, hrecovers, -⟩ := recoverSegments_parsed hrecover
    obtain ⟨earlier, active, hearlier, hsized, hlast, rfl⟩ := hframed.split_last
    exact ⟨⟨⟨earlier, active, ⟨hearlier, hsized, hlast⟩, hrecovers⟩,
      (recoverSegments_usable hrecover).1, hidentity ▸ hnamed⟩, hidentity.symm, rfl, rfl, rfl, rfl⟩

theorem Leaves.opens (h : Leaves json w live)
    (hsize : segmentHeaderSize + frameHeaderSize < size) :
    openWAL json w.directory live.identity size =
      .ok (resumeWAL live.identity size live w.segments ⟨w.segment, w.contents⟩, live) := by
  obtain ⟨earlier, active, hframes, hrecovers⟩ := h.frames
  have hrecover := (recoverSegments_framed hframes.directory (live, w.directory)).mpr
    ⟨rfl, hrecovers⟩
  exact openWAL_directory_ok h.named hsize hrecover rfl

theorem FramesRecover.snoc {frames : List Frame} {f : Frame} (h : FramesRecover json frames live)
    (hkind : f.kind ≠ RecordType.compactionCheckpoint.toByte)
    (happly : applyRecord json f.kind f.payload live = .ok live')
    (hidentity : live'.identity = live.identity) :
    FramesRecover json (frames ++ [f]) live' := by
  obtain ⟨⟨checkpoint, hcheckpoint, hreplay⟩, hnamed⟩ := h
  refine ⟨⟨checkpoint, ?_, ?_⟩, hidentity ▸ hnamed⟩
  · rw [visitFrames_append, hcheckpoint]
    simp only [visitFrames, visitCheckpoint, if_pos hkind]
  · rw [replayFrames_append, hreplay]
    simp only [replayFrames, happly]

theorem WAL.appendRecord_size {kind : RecordType} {payload : Bytes}
    (hok : w.appendRecord kind payload = .ok w') : payload.length + 1 ≤ maxRecordSize := by
  rw [WAL.appendRecord] at hok
  split at hok
  · simp at hok
  next hsize => exact Nat.not_lt.mp hsize

theorem Leaves.congr (h : Leaves json w live) (hsegments : w'.segments = w.segments)
    (hcontents : w'.contents = w.contents) : Leaves json w' live := by
  obtain ⟨⟨earlier, active, hframes, hrecovers⟩, husable, hnamed⟩ := h
  exact ⟨⟨earlier, active, hframes.congr hsegments hcontents, hrecovers⟩, husable, hnamed⟩

theorem Leaves.append (record : Record) (h : Leaves json w live) (hplain : record.Plain)
    (hencodable : (record.payload json).length + 1 ≤ maxRecordSize → record.Encodable)
    (hok : w.appendRecord record.kind (record.payload json) = .ok w')
    (hreplay : record.replay live = .ok live') (hidentity : live'.identity = live.identity) :
    Leaves json w' live' := by
  obtain ⟨earlier, active, hframes, hrecovers⟩ := h.frames
  have happly : applyRecord json record.kind.toByte (record.payload json) live = .ok live' := by
    rw [Record.applyRecord_payload json (hencodable (WAL.appendRecord_size hok)), hreplay]
  have hkind : record.kind.toByte ≠ RecordType.compactionCheckpoint.toByte := by
    cases record with
    | checkpoint c => exact absurd rfl (hplain c)
    | _ => simp [Record.kind, RecordType.toByte]
  have hnext := hrecovers.snoc (f := ⟨record.kind.toByte, record.payload json⟩) hkind happly
    hidentity
  have husable := (Record.replay_raises h.usable hreplay).usable
  rcases hframes.append hok with ⟨-, hkeep⟩ | hroll
  · refine ⟨⟨_, _, hkeep, ?_⟩, husable, hidentity ▸ h.named⟩
    rw [← List.append_assoc]
    exact hnext
  · exact ⟨⟨_, _, hroll, hnext⟩, husable, hidentity ▸ h.named⟩

/-! ## Calls that only append -/

def Operation.appends : Operation → Bool
  | .compact .. => false
  | .installSnapshot .. => false
  | _ => true

def Operation.added : Operation → Nat
  | .saveLogEntries entries => entries.length
  | _ => 0

def RecoveredState.keep (live : RecoveredState) : Operation → RecoveredState
  | .saveHardState state => live.applyHardState state
  | operation => live.perform operation

theorem RecoveredState.applyHardState_identity (live : RecoveredState) (state : HardState) :
    (live.applyHardState state).identity = live.identity ∧
      (live.applyHardState state).lastIndex = live.lastIndex ∧
      (live.applyHardState state).commitIndex = live.commitIndex ∧
      (live.applyHardState state).snapshotIndex = live.snapshotIndex ∧
      (live.applyHardState state).snapshotTerm = live.snapshotTerm ∧
      (live.applyHardState state).last = live.last := by
  rw [RecoveredState.applyHardState]
  split
  · exact ⟨rfl, rfl, rfl, rfl, rfl, rfl⟩
  · split
    · exact ⟨rfl, rfl, rfl, rfl, rfl, rfl⟩
    · exact ⟨rfl, rfl, rfl, rfl, rfl, rfl⟩

theorem Recovers.saveHardState {state : HardState} (h : Recovers json w live)
    (hok : w.saveHardState state = (w', none)) :
    Recovers json w' (live.keep (.saveHardState state)) := by
  obtain ⟨appended, happended, rfl⟩ := WAL.appendThen_ok hok
  obtain ⟨hidentity, hlast, hcommit, hindex, hterm, -⟩ := live.applyHardState_identity state
  have hreplay : (Record.hardState state).replay live = .ok (live.applyHardState state) := by
    simp [Record.replay, blank_false h.named.2]
  have hleaves := h.toLeaves.append (.hardState state) (by simp [Record.Plain])
    (fun _ => trivial) happended hreplay hidentity
  have hagrees := h.agrees
  obtain ⟨_, _, _, rfl⟩ := WAL.appendRecord_files happended
  exact ⟨hleaves.congr rfl rfl, hagrees.identity.trans hidentity.symm,
    hagrees.lastLogIndex.trans hlast.symm, hagrees.commitIndex.trans hcommit.symm,
    hagrees.snapshotIndex.trans hindex.symm, hagrees.snapshotTerm.trans hterm.symm⟩

theorem RecoveredState.Usable.replay_entry (h : live.Usable) {entry : LogEntry}
    (hindex : entry.index.toNat = live.last + 1) :
    (Record.entry entry).replay live = .ok { live with log := live.log ++ [entry] } := by
  have hlast := h.lastIndex
  have hentry := entry.index.toNat_lt
  have habove : ¬ entry.index ≤ live.snapshotIndex := by
    rw [UInt64.le_iff_toNat_le, hindex, RecoveredState.last]
    omega
  have hnext : entry.index = live.lastIndex + 1 := by
    apply UInt64.toNat_inj.mp
    rw [UInt64.toNat_add, hlast, hindex]
    simp only [UInt64.reduceToNat]
    omega
  simp [Record.replay, RecoveredState.appendEntry, habove, ← hnext]

theorem RecoveredState.last_append (live : RecoveredState) (entries : List LogEntry) :
    ({ live with log := live.log ++ entries } : RecoveredState).last =
      live.last + entries.length := by
  simp only [RecoveredState.last, List.length_append]
  omega

theorem Leaves.appendEntryRecords {entries : List LogEntry} (h : Leaves json w live)
    (hcontiguous : Contiguous live.last entries)
    (hok : w.appendEntryRecords entries = (w', none)) :
    Leaves json w' { live with log := live.log ++ entries } := by
  induction entries generalizing w live with
  | nil =>
      cases hok
      simpa using h
  | cons entry entries ih =>
      rw [WAL.appendEntryRecords] at hok
      split at hok
      · simp at hok
      next appended happended =>
        have hnext := h.append (.entry entry) (by simp [Record.Plain])
          (entry_encodable json entry) happended (h.usable.replay_entry hcontiguous.1) rfl
        have hrest : Contiguous
            ({ live with log := live.log ++ [entry] } : RecoveredState).last entries := by
          rw [live.last_append]
          exact hcontiguous.2
        have hleaves := ih (by exact hnext.congr rfl rfl) hrest hok
        simpa using hleaves

theorem Recovers.contiguous {entries : List LogEntry} (h : Recovers json w live)
    (horder : WAL.orderError w.lastLogIndex entries = none)
    (hroom : live.last + entries.length < 2 ^ 64) : Contiguous live.last entries := by
  rw [h.agrees.lastLogIndex] at horder
  rw [← h.usable.lastIndex] at hroom ⊢
  exact orderError_none horder hroom

theorem Recovers.saveLogEntries {entries : List LogEntry} (h : Recovers json w live)
    (hroom : live.last + entries.length < 2 ^ 64)
    (hok : w.saveLogEntries entries = (w', none)) :
    Recovers json w' (live.keep (.saveLogEntries entries)) := by
  obtain ⟨horder, appended, happended, rfl⟩ := WAL.saveLogEntries_ok hok
  have hleaves := h.toLeaves.appendEntryRecords (h.contiguous horder hroom) happended
  have hagrees := h.agrees
  obtain ⟨_, _, _, rfl⟩ := WAL.appendEntryRecords_files happended
  refine ⟨hleaves.congr rfl rfl, hagrees.identity, ?_, hagrees.commitIndex,
    hagrees.snapshotIndex, hagrees.snapshotTerm⟩
  simp only [hagrees.lastLogIndex, RecoveredState.lastIndex, RecoveredState.keep,
    RecoveredState.perform, List.length_append, UInt64.ofNat_add, UInt64.add_assoc]

theorem Recovers.truncateLog {first : UInt64} (h : Recovers json w live)
    (hok : w.truncateLog first = (w', none)) :
    Recovers json w' (live.keep (.truncateLog first)) := by
  obtain ⟨hzero, hinside, hcommit, appended, happended, rfl⟩ := WAL.truncateLog_ok hok
  have hagrees := h.agrees
  rw [hagrees.lastLogIndex] at hinside
  rw [hagrees.commitIndex] at hcommit
  have hlast := h.usable.lastIndex
  have habove : live.snapshotIndex < first := UInt64.lt_of_le_of_lt h.usable.base_le hcommit
  obtain ⟨hcount, -⟩ := RecoveredState.truncation_count h.usable.contiguous habove hinside
  have hlog : live.log.take (first - live.snapshotIndex - 1).toNat =
      live.log.filter fun entry => entry.index < first := by
    rw [h.usable.contiguous.filter_below, hcount]
  have hreplay : (Record.truncation first).replay live =
      .ok (live.keep (.truncateLog first)) := by
    simp only [Record.replay, RecoveredState.applyTruncation, if_neg hzero,
      if_neg (UInt64.not_le.mpr habove), if_neg (UInt64.not_lt.mpr hinside),
      if_neg (UInt64.not_le.mpr hcommit), hlog, RecoveredState.keep, RecoveredState.perform]
  have hleaves := h.toLeaves.append (.truncation first) (by simp [Record.Plain])
    (fun _ => trivial) happended hreplay rfl
  obtain ⟨_, _, _, rfl⟩ := WAL.appendRecord_files happended
  refine ⟨hleaves.congr rfl rfl, hagrees.identity, ?_, hagrees.commitIndex,
    hagrees.snapshotIndex, hagrees.snapshotTerm⟩
  have hkept := hleaves.usable.lastIndex
  apply UInt64.toNat_inj.mp
  rw [hkept]
  simp only [RecoveredState.keep, RecoveredState.perform, RecoveredState.last, ← hlog, hcount,
    List.length_take]
  rw [UInt64.le_iff_toNat_le, UInt64.toNat_add, hlast, RecoveredState.last] at hinside
  rw [UInt64.lt_iff_toNat_lt] at habove
  have hpositive := first.toNat_lt
  rw [UInt64.toNat_sub]
  simp only [UInt64.reduceToNat] at hinside ⊢
  omega

theorem Recovers.saveCommitIndex {index : UInt64} (h : Recovers json w live)
    (hok : w.saveCommitIndex index = (w', none)) :
    Recovers json w' (live.keep (.saveCommitIndex index)) := by
  have hagrees := h.agrees
  obtain ⟨hlow, hhigh, hsaved⟩ := WAL.saveCommitIndex_ok hok
  rw [hagrees.commitIndex] at hlow
  rw [hagrees.lastLogIndex] at hhigh
  have hreplay : (Record.commit index).replay live =
      .ok (live.keep (.saveCommitIndex index)) := by
    simp only [Record.replay, RecoveredState.applyCommitIndex, if_neg (UInt64.not_lt.mpr hlow),
      if_neg (UInt64.not_lt.mpr hhigh), RecoveredState.keep, RecoveredState.perform]
  rcases hsaved with ⟨rfl, rfl⟩ | ⟨-, appended, happended, rfl⟩
  · have hsame : live.keep (.saveCommitIndex w'.commitIndex) = live := by
      rw [hagrees.commitIndex]
      rfl
    rwa [hsame]
  · have hleaves := h.toLeaves.append (.commit index) (by simp [Record.Plain])
      (fun _ => trivial) happended hreplay rfl
    obtain ⟨_, _, _, rfl⟩ := WAL.appendRecord_files happended
    exact ⟨hleaves.congr rfl rfl, hagrees.identity, hagrees.lastLogIndex, rfl,
      hagrees.snapshotIndex, hagrees.snapshotTerm⟩

theorem Recovers.perform {operation : Operation} (h : Recovers json w live)
    (happends : operation.appends) (hroom : live.last + operation.added < 2 ^ 64)
    (hok : w.perform json operation = some w') : Recovers json w' (live.keep operation) := by
  cases operation with
  | saveHardState state => exact h.saveHardState (Outcome.succeeded_eq_some.mp hok)
  | saveLogEntries entries => exact h.saveLogEntries hroom (Outcome.succeeded_eq_some.mp hok)
  | truncateLog first => exact h.truncateLog (Outcome.succeeded_eq_some.mp hok)
  | saveCommitIndex index => exact h.saveCommitIndex (Outcome.succeeded_eq_some.mp hok)
  | compact index term => simp [Operation.appends] at happends
  | installSnapshot index term retain => simp [Operation.appends] at happends
  | reopen size =>
      rw [WAL.perform, h.agrees.identity] at hok
      split at hok
      · simp at hok
      next opened recovered hopen =>
        cases hok
        have hsame : recovered = live := by
          obtain ⟨-, hsize, -⟩ := openWAL_ok hopen
          rw [h.opens hsize] at hopen
          cases hopen
          rfl
        exact hsame ▸ recovers_of_open hopen

def RecoveredState.Room (live : RecoveredState) : List Operation → Prop
  | [] => True
  | operation :: operations =>
      live.last + operation.added < 2 ^ 64 ∧ (live.keep operation).Room operations

theorem Recovers.performAll {operations : List Operation} (h : Recovers json w live)
    (happends : ∀ operation ∈ operations, operation.appends)
    (hroom : live.Room operations) (hok : w.performAll json operations = some w') :
    Recovers json w' (operations.foldl RecoveredState.keep live) := by
  induction operations generalizing w live with
  | nil =>
      cases hok
      exact h
  | cons operation operations ih =>
      rw [WAL.performAll, Option.bind_eq_some_iff] at hok
      obtain ⟨middle, hfirst, hrest⟩ := hok
      exact ih (h.perform (happends operation (by simp)) hroom.1 hfirst)
        (fun other hother => happends other (by simp [hother])) hroom.2 hrest

theorem RecoveredState.foldl_keep_identity (live : RecoveredState)
    (operations : List Operation) :
    (operations.foldl RecoveredState.keep live).identity = live.identity := by
  induction operations generalizing live with
  | nil => rfl
  | cons operation operations ih =>
      refine (ih _).trans ?_
      cases operation with
      | saveHardState state => exact (live.applyHardState_identity state).1
      | _ => rfl

def AppendsRecovered (json : CheckpointJSON) (w : WAL) (live : RecoveredState) : Prop :=
  ∀ (later : List Operation) (w' : WAL) (size : Nat),
    (∀ operation ∈ later, operation.appends) →
    live.Room later →
    w.performAll json later = some w' → segmentHeaderSize + frameHeaderSize < size →
    ∃ reopened, openWAL json w'.directory live.identity size =
      .ok (reopened, later.foldl RecoveredState.keep live)

theorem Recovers.appendsRecovered (h : Recovers json w live) : AppendsRecovered json w live := by
  intro later w' size happends hroom hok hsize
  have hopens := (h.performAll happends hroom hok).opens hsize
  rw [live.foldl_keep_identity later] at hopens
  exact ⟨_, hopens⟩

end Recovers

/-! ## Histories without Snapshots -/

section Histories

variable {json : CheckpointJSON} {identity : Identity} {size size' : Nat}
  {operations : List Operation}

theorem RecoveredState.keep_of_monotone {t : Trace} {operation : Operation}
    (hmonotone : t.Monotone operation) : t.live.keep operation = t.live.perform operation := by
  cases operation with
  | saveHardState state =>
      have hstep := Record.hardStep_follows hmonotone
      simp only [Record.hardStep] at hstep
      simp only [RecoveredState.keep, RecoveredState.applyHardState, RecoveredState.perform]
      split
      next hlow => rw [if_pos hlow] at hstep; rw [← hstep]
      next hlow =>
        split
        next hvoted => rw [if_neg hlow, if_pos hvoted] at hstep; rw [← hstep]
        · rfl
  | _ => rfl

theorem RecoveredState.foldl_keep {t : Trace} (hmonotone : t.Along Trace.Monotone operations) :
    operations.foldl RecoveredState.keep t.live = (t.performAll operations).live := by
  induction operations generalizing t with
  | nil => rfl
  | cons operation operations ih =>
      rw [List.foldl_cons, RecoveredState.keep_of_monotone hmonotone.1]
      exact ih hmonotone.2

/--
Without Snapshots every reopen succeeds and recovers the live state, whatever the
segment sizes and however often the WAL was reopened before.
-/
theorem reopen_recovers_appended {w : WAL} {outcome : Except OpenError (WAL × RecoveredState)}
    (happends : ∀ operation ∈ operations, operation.appends)
    (hmonotone : (Trace.initial identity).Along Trace.Monotone operations)
    (hroom : RecoveredState.Room { identity := identity } operations)
    (hsize : segmentHeaderSize + frameHeaderSize < size')
    (hrun : closeAndReopen json identity size size' operations = some (w, outcome)) :
    ∃ w', outcome = .ok (w', ((Trace.initial identity).performAll operations).live) := by
  obtain ⟨opened, fresh, hopen, hclosed, rfl⟩ := closeAndReopen_some hrun
  obtain ⟨-, -, -, ⟨-, rfl⟩ | ⟨files, last, hrecover, -⟩⟩ := openWAL_ok hopen
  · have hrecovers := (recovers_of_open hopen).performAll happends hroom hclosed
    have hlive : operations.foldl RecoveredState.keep { identity := identity } =
        ((Trace.initial identity).performAll operations).live :=
      RecoveredState.foldl_keep hmonotone
    rw [hlive] at hrecovers
    have hopens := hrecovers.opens hsize
    rw [(Trace.initial identity).performAll_identity operations] at hopens
    exact ⟨_, hopens⟩
  · obtain ⟨-, -, -, hnumbers, -⟩ := recoverSegments_parsed hrecover
    simp at hnumbers

def replacedAcross : List Operation :=
  [.saveHardState ⟨1, [110]⟩, .saveLogEntries [sampleEntry 1 1, sampleEntry 2 1], .truncateLog 2,
    .reopen 100, .saveLogEntries [sampleEntry 2 2], .saveCommitIndex 2]

theorem reopen_recovers_appended_across : ∃ w w',
    closeAndReopen escapedCheckpoints sampleIdentity 64 64 replacedAcross = some (w, .ok (w',
      { identity := sampleIdentity
        hardState := ⟨1, [110]⟩
        log := [sampleEntry 1 1, sampleEntry 2 2]
        commitIndex := 2 })) := by
  obtain ⟨⟨w, outcome⟩, hrun⟩ := Option.isSome_iff_exists.mp (show (closeAndReopen
    escapedCheckpoints sampleIdentity 64 64 replacedAcross).isSome = true by decide +kernel)
  have hroom : RecoveredState.Room { identity := sampleIdentity } replacedAcross :=
    ⟨by decide, by decide, by decide, by decide, by decide, by decide, trivial⟩
  obtain ⟨w', hok⟩ := reopen_recovers_appended (by decide) (by decide) hroom (by decide) hrun
  rw [hok] at hrun
  exact ⟨w, w', hrun⟩

end Histories

end QuorumKV.Wal
