import QuorumKV.Raft.View
import QuorumKV.Wal.Fidelity
import QuorumKV.Wal.Frames

/-!
# What recovery may return

Whatever bytes the directory holds, the log recovery returns is contiguous from
the Snapshot index and the Snapshot index is committed.  The commit index is the
largest one recorded, by the newest checkpoint or by a record of its own; nothing
compares it with the entries that are still there.
-/

namespace QuorumKV.Wal

open Foundation
open QuorumKV.Raft (Bytes NodeID)

namespace RecoveredState

structure Usable (state : RecoveredState) : Prop where
  contiguous : Contiguous state.snapshotIndex.toNat state.log
  bound : state.snapshotIndex.toNat + state.log.length < 2 ^ 64
  base_le : state.snapshotIndex ≤ state.commitIndex

def last (state : RecoveredState) : Nat := state.snapshotIndex.toNat + state.log.length

/-- Replay keeps the Snapshot position and raises the commit index to `commit` at most. -/
structure Raises (state state' : RecoveredState) (commit : Nat) : Prop where
  usable : state'.Usable
  snapshotIndex : state'.snapshotIndex = state.snapshotIndex
  commitIndex : state'.commitIndex.toNat = max state.commitIndex.toNat commit

section Replay

variable {state state' : RecoveredState}

theorem Usable.raises (h : state.Usable) : state.Raises state 0 := ⟨h, rfl, by simp⟩

theorem contiguous_bound (h : Contiguous state.snapshotIndex.toNat state.log) :
    state.snapshotIndex.toNat + state.log.length < 2 ^ 64 := by
  rcases List.eq_nil_or_concat state.log with hnil | ⟨front, entry, hconcat⟩
  · have hlt := state.snapshotIndex.toNat_lt
    simpa [hnil] using hlt
  · rw [hconcat, List.concat_eq_append, contiguous_append] at h
    have hindex := h.2.1
    have hlt := entry.index.toNat_lt
    rw [hconcat, List.concat_eq_append, List.length_append, List.length_singleton]
    omega

theorem contiguous_lastIndex (h : Contiguous state.snapshotIndex.toNat state.log) :
    state.lastIndex.toNat = state.last :=
  toNat_lastIndex (contiguous_bound h)

theorem Usable.lastIndex (h : state.Usable) : state.lastIndex.toNat = state.last :=
  contiguous_lastIndex h.contiguous

/-! What each step of a replay accepts, and the field it changes. -/

theorem appendEntry_ok {entry : LogEntry} (hok : state.appendEntry entry = .ok state') :
    (entry.index ≤ state.snapshotIndex ∧ state' = state) ∨
      (state.snapshotIndex < entry.index ∧ entry.index = state.lastIndex + 1 ∧
        state' = { state with log := state.log ++ [entry] }) := by
  rw [RecoveredState.appendEntry] at hok
  split at hok
  next hbelow =>
    cases hok
    exact .inl ⟨hbelow, rfl⟩
  next habove =>
    split at hok
    · simp at hok
    next hindex =>
      cases hok
      exact .inr ⟨UInt64.not_le.mp habove, not_not.mp hindex, rfl⟩

theorem applyTruncation_ok {first : UInt64} (hok : state.applyTruncation first = .ok state') :
    (first ≤ state.snapshotIndex ∧ state' = state) ∨
      (state.snapshotIndex < first ∧ first ≤ state.lastIndex + 1 ∧
        state' = { state with
          log := state.log.take (first - state.snapshotIndex - 1).toNat }) := by
  rw [RecoveredState.applyTruncation] at hok
  split at hok
  · simp at hok
  · split at hok
    next hbelow =>
      cases hok
      exact .inl ⟨hbelow, rfl⟩
    next habove =>
      split at hok
      · simp at hok
      next hinside =>
        split at hok
        · simp at hok
        · cases hok
          exact .inr ⟨UInt64.not_le.mp habove, UInt64.not_lt.mp hinside, rfl⟩

theorem applyCommitIndex_ok {index : UInt64} (hok : state.applyCommitIndex index = .ok state') :
    (index < state.commitIndex ∧ state' = state) ∨
      (state.commitIndex ≤ index ∧ state' = { state with commitIndex := index }) := by
  rw [RecoveredState.applyCommitIndex] at hok
  split at hok
  next hlow =>
    cases hok
    exact .inl ⟨hlow, rfl⟩
  next hlow =>
    split at hok
    · simp at hok
    · cases hok
      exact .inr ⟨UInt64.not_lt.mp hlow, rfl⟩

theorem applyCheckpoint_ok {c : CompactionCheckpoint}
    (hok : state.applyCheckpoint c = .ok state') :
    (¬ (c.truncateFrom ≠ 0 ∧ c.snapshotIndex = state.snapshotIndex) ∧ state' = state) ∨
      (c.truncateFrom ≠ 0 ∧ c.truncateFrom = c.snapshotIndex + 1 ∧
        c.snapshotIndex = state.snapshotIndex ∧ state' = { state with
          log := state.log.takeWhile fun entry => entry.index < c.truncateFrom }) := by
  rw [RecoveredState.applyCheckpoint] at hok
  split at hok
  · simp at hok
  · split at hok
    · simp at hok
    · split at hok
      next hfrom =>
        split at hok
        · simp at hok
        next hsucc =>
          split at hok
          next hsame =>
            cases hok
            exact .inr ⟨hfrom, not_not.mp hsucc, hsame, rfl⟩
          next hother =>
            cases hok
            exact .inl ⟨fun hcut => hother hcut.2, rfl⟩
      next hfrom =>
        cases hok
        exact .inl ⟨fun hcut => hfrom hcut.1, rfl⟩

theorem applyClusterIdentity_ok {id : Bytes} (hok : state.applyClusterIdentity id = .ok state') :
    (state.identity.clusterID = [] ∨ state.identity.clusterID = id) ∧
      state' = { state with identity := { state.identity with clusterID := id } } := by
  rw [RecoveredState.applyClusterIdentity] at hok
  split at hok
  · split at hok
    · simp at hok
    next hsame =>
      cases hok
      rw [ne_eq, not_not] at hsame
      exact ⟨.inr hsame, by rw [← hsame]⟩
  next hunnamed =>
    cases hok
    exact ⟨.inl (not_not.mp hunnamed), rfl⟩

theorem applyNodeIdentity_ok {id : Bytes} (hok : state.applyNodeIdentity id = .ok state') :
    state.identity.clusterID ≠ [] ∧ (state.identity.nodeID = [] ∨ state.identity.nodeID = id) ∧
      state' = { state with identity := { state.identity with nodeID := id } } := by
  rw [RecoveredState.applyNodeIdentity] at hok
  split at hok
  · simp at hok
  next hcluster =>
    refine ⟨hcluster, ?_⟩
    split at hok
    · split at hok
      · simp at hok
      next hsame =>
        cases hok
        rw [ne_eq, not_not] at hsame
        exact ⟨.inr hsame, by rw [← hsame]⟩
    next hunnamed =>
      cases hok
      exact ⟨.inl (not_not.mp hunnamed), rfl⟩

theorem applyHardState_eq (state : RecoveredState) (h : HardState) :
    state.applyHardState h =
      { state with hardState := Record.hardStep state.hardState (.hardState h) } := by
  rw [RecoveredState.applyHardState, Record.hardStep]
  split
  · rfl
  · split <;> rfl

theorem next_index {entry : LogEntry} (h : Contiguous state.snapshotIndex.toNat state.log)
    (habove : state.snapshotIndex < entry.index) (hindex : entry.index = state.lastIndex + 1) :
    entry.index.toNat = state.last + 1 := by
  have hbound := contiguous_bound h
  have hnext := congrArg UInt64.toNat hindex
  rw [UInt64.toNat_add, contiguous_lastIndex h] at hnext
  rw [UInt64.lt_iff_toNat_lt] at habove
  simp only [UInt64.reduceToNat, last] at hnext ⊢
  omega

theorem truncation_count {first : UInt64} (h : Contiguous state.snapshotIndex.toNat state.log)
    (habove : state.snapshotIndex < first) (hinside : first ≤ state.lastIndex + 1) :
    (first - state.snapshotIndex - 1).toNat = first.toNat - state.snapshotIndex.toNat - 1 ∧
      first.toNat - state.snapshotIndex.toNat - 1 ≤ state.log.length := by
  have hbound := contiguous_bound h
  have hfirst := first.toNat_lt
  rw [UInt64.lt_iff_toNat_lt] at habove
  rw [UInt64.le_iff_toNat_le, UInt64.toNat_add, contiguous_lastIndex h, last] at hinside
  rw [UInt64.toNat_sub, UInt64.toNat_sub]
  simp only [UInt64.reduceToNat] at hinside ⊢
  omega

theorem appendEntry_contiguous {entry : LogEntry}
    (h : Contiguous state.snapshotIndex.toNat state.log)
    (hok : state.appendEntry entry = .ok state') :
    Contiguous state.snapshotIndex.toNat state'.log ∧
      state' = { state with log := state'.log } := by
  rcases appendEntry_ok hok with ⟨-, rfl⟩ | ⟨habove, hindex, rfl⟩
  · exact ⟨h, rfl⟩
  · exact ⟨contiguous_append.mpr ⟨h, next_index h habove hindex, trivial⟩, rfl⟩

theorem Usable.raises_log {log : List LogEntry} (h : state.Usable)
    (hlog : Contiguous state.snapshotIndex.toNat log) :
    state.Raises { state with log := log } 0 :=
  ⟨⟨hlog, @contiguous_bound { state with log := log } hlog, h.base_le⟩, rfl, by simp⟩

theorem Usable.appendEntry {entry : LogEntry} (h : state.Usable)
    (hok : state.appendEntry entry = .ok state') : state.Raises state' 0 := by
  obtain ⟨hcontiguous, hsame⟩ := appendEntry_contiguous h.contiguous hok
  rw [hsame]
  exact h.raises_log hcontiguous

theorem Usable.applyTruncation {first : UInt64} (h : state.Usable)
    (hok : state.applyTruncation first = .ok state') : state.Raises state' 0 := by
  rcases applyTruncation_ok hok with ⟨-, rfl⟩ | ⟨-, -, rfl⟩
  · exact h.raises
  · exact h.raises_log (h.contiguous.take _)

theorem Usable.applyCommitIndex {index : UInt64} (h : state.Usable)
    (hok : state.applyCommitIndex index = .ok state') : state.Raises state' index.toNat := by
  rcases applyCommitIndex_ok hok with ⟨hlow, rfl⟩ | ⟨hlow, rfl⟩
  · refine ⟨h, rfl, ?_⟩
    rw [UInt64.lt_iff_toNat_lt] at hlow
    omega
  · refine ⟨⟨h.contiguous, h.bound, UInt64.le_trans h.base_le hlow⟩, rfl, ?_⟩
    rw [UInt64.le_iff_toNat_le] at hlow
    simp only
    omega

theorem Usable.applyCheckpoint {checkpoint : CompactionCheckpoint} (h : state.Usable)
    (hok : state.applyCheckpoint checkpoint = .ok state') : state.Raises state' 0 := by
  rcases applyCheckpoint_ok hok with ⟨-, rfl⟩ | ⟨-, -, -, rfl⟩
  · exact h.raises
  · rw [List.takeWhile_eq_take_findIdx_not]
    exact h.raises_log (h.contiguous.take _)

theorem Usable.raises_same (h : state.Usable) (identity : Identity) (hardState : HardState) :
    state.Raises { state with identity := identity, hardState := hardState } 0 :=
  ⟨⟨h.contiguous, h.bound, h.base_le⟩, rfl, by simp⟩

end Replay

end RecoveredState

/-! ## What the frames record -/

def entryRecords (width : Nat) (decode : Bytes → LogEntry) : Nat → Bytes → List Record
  | 0, _ => []
  | count + 1, payload =>
      .entry (decode payload) :: entryRecords width decode count (payload.drop width)

def Frame.records (json : CheckpointJSON) (f : Frame) : List Record :=
  match RecordType.ofByte? f.kind with
  | none => []
  | some .clusterIdentity => [.clusterIdentity f.payload]
  | some .nodeIdentity => [.nodeIdentity f.payload]
  | some .hardState => [.hardState ⟨uint64 (slice f.payload 0 8), f.payload.drop 8⟩]
  | some .logEntries => entryRecords 17 decodeEntryHead (f.payload.length / 17) f.payload
  | some .logEntriesV2 => entryRecords 33 decodeEntryV2 (f.payload.length / 33) f.payload
  | some .logEntryV3 => [.entry (decodeEntryV3 f.payload)]
  | some .logTruncation => [.truncation (uint64 f.payload)]
  | some .commitIndex => [.commit (uint64 f.payload)]
  | some .compactionCheckpoint => ((json.unmarshal f.payload).map Record.checkpoint).toList

def visitRecords (json : CheckpointJSON) (found : List Record) (kind : UInt8) (payload : Bytes) :
    Except Empty (List Record) :=
  .ok (found ++ Frame.records json ⟨kind, payload⟩)

def directoryRecords (json : CheckpointJSON) (segments : List Segment) :
    Except (ScanError Empty) (List Record) :=
  visitSegments (visitRecords json) [] segments

def Record.commitIndex : Record → Nat
  | .commit index => index.toNat
  | _ => 0

section Directory

variable {json : CheckpointJSON} {state state' : RecoveredState} {record : Record}
  {records : List Record} {f : Frame} {frames : List Frame}

theorem Record.replayAll_singleton (state : RecoveredState) (record : Record) :
    Record.replayAll state [record] = record.replay state := by
  simp only [Record.replayAll]
  cases record.replay state <;> rfl

theorem appendEntries_eq (width : Nat) (decode : Bytes → LogEntry) (count : Nat)
    (payload : Bytes) (state : RecoveredState) :
    RecoveredState.appendEntries width decode count payload state =
      Record.replayAll state (entryRecords width decode count payload) := by
  induction count generalizing payload state with
  | zero => rfl
  | succ count ih =>
      rw [RecoveredState.appendEntries, entryRecords, Record.replayAll, Record.replay]
      cases state.appendEntry (decode payload) with
      | error e => rfl
      | ok appended => exact ih (payload.drop width) appended

theorem applyRecord_records (hok : applyRecord json f.kind f.payload state = .ok state') :
    Record.replayAll state (f.records json) = .ok state' := by
  rw [applyRecord] at hok
  rw [Frame.records]
  cases hkind : RecordType.ofByte? f.kind with
  | none => simp [hkind] at hok
  | some kind =>
      simp only [hkind] at hok ⊢
      cases kind with
      | clusterIdentity | nodeIdentity =>
          rw [Record.replayAll_singleton]
          exact hok
      | hardState =>
          simp only [Record.replayAll_singleton, Record.replay] at hok ⊢
          split at hok
          · simp at hok
          next hnamed =>
            split at hok
            · simp at hok
            · rw [if_neg hnamed]
              exact hok
      | logEntries | logEntriesV2 =>
          simp only at hok
          split at hok
          · simp at hok
          · rw [← appendEntries_eq]
            exact hok
      | logEntryV3 =>
          simp only at hok
          split at hok
          · simp at hok
          · split at hok
            · simp at hok
            · rw [Record.replayAll_singleton]
              exact hok
      | logTruncation | commitIndex =>
          simp only at hok
          split at hok
          · simp at hok
          · rw [Record.replayAll_singleton]
            exact hok
      | compactionCheckpoint =>
          simp only at hok
          split at hok
          · simp at hok
          next checkpoint hdecoded =>
            rw [hdecoded, Option.map_some, Option.toList_some, Record.replayAll_singleton]
            exact hok

theorem replayFrames_records (hok : replayFrames json state frames = .ok state') :
    Record.replayAll state (frames.flatMap (Frame.records json)) = .ok state' := by
  induction frames generalizing state with
  | nil => exact hok
  | cons f frames ih =>
      rw [replayFrames] at hok
      split at hok
      · simp at hok
      next next hnext =>
        rw [List.flatMap_cons, Record.replayAll_append, applyRecord_records hnext]
        exact ih hok

theorem visitFrames_records (found : List Record) (frames : List Frame) :
    visitFrames (visitRecords json) found frames =
      .ok (found ++ frames.flatMap (Frame.records json)) := by
  induction frames generalizing found with
  | nil => simp [visitFrames]
  | cons f frames ih => simp [visitFrames, visitRecords, ih]

theorem Record.replay_hardState_ok {h : HardState}
    (hok : (Record.hardState h).replay state = .ok state') : state' =
      { state with hardState := Record.hardStep state.hardState (.hardState h) } := by
  simp only [Record.replay] at hok
  split at hok
  · simp at hok
  · cases hok
    rw [state.applyHardState_eq]

theorem Record.replay_raises (h : state.Usable) (hok : record.replay state = .ok state') :
    state.Raises state' record.commitIndex := by
  cases record with
  | clusterIdentity id =>
      obtain ⟨-, rfl⟩ := RecoveredState.applyClusterIdentity_ok hok
      exact h.raises_same _ _
  | nodeIdentity id =>
      obtain ⟨-, -, rfl⟩ := RecoveredState.applyNodeIdentity_ok hok
      exact h.raises_same _ _
  | hardState hardState =>
      obtain rfl := Record.replay_hardState_ok hok
      exact h.raises_same _ _
  | entry entry => exact h.appendEntry hok
  | truncation first => exact h.applyTruncation hok
  | commit index => exact h.applyCommitIndex hok
  | checkpoint c => exact h.applyCheckpoint hok

theorem Record.replayAll_usable (h : state.Usable)
    (hok : Record.replayAll state records = .ok state') : state'.Usable := by
  induction records generalizing state with
  | nil =>
      cases hok
      exact h
  | cons record records ih =>
      rw [Record.replayAll] at hok
      split at hok
      · simp at hok
      next next hnext => exact ih (Record.replay_raises h hnext).usable hok

theorem visitCheckpoint_ok {found next : CompactionCheckpoint} {kind : UInt8} {payload : Bytes}
    (hok : visitCheckpoint json found kind payload = .ok next) :
    (kind ≠ RecordType.compactionCheckpoint.toByte ∧ next = found) ∨
      (json.unmarshal payload = some next ∧ (Record.checkpoint next).CheckpointOK) := by
  rw [visitCheckpoint] at hok
  split at hok
  next hkind =>
    cases hok
    exact .inl ⟨hkind, rfl⟩
  · split at hok
    · simp at hok
    next checkpoint hdecoded =>
      split at hok
      · simp at hok
      next hnamed =>
        split at hok
        · simp at hok
        next hposition =>
          split at hok
          · simp at hok
          next hfrom =>
            cases hok
            simp only [not_or, Bool.not_eq_true, gt_iff_lt, UInt64.not_lt] at hnamed hposition
            refine .inr ⟨hdecoded, hnamed.1, hnamed.2, hposition.1, hposition.2.1, hposition.2.2, ?_⟩
            by_contra hneither
            exact hfrom (not_or.mp hneither)

theorem visitFrames_start_usable {frames : List Frame} {found checkpoint : CompactionCheckpoint}
    (hfound : found.start.Usable)
    (hvisit : visitFrames (visitCheckpoint json) found frames = .ok checkpoint) :
    checkpoint.start.Usable := by
  induction frames generalizing found with
  | nil =>
      cases hvisit
      exact hfound
  | cons f frames ih =>
      rw [visitFrames] at hvisit
      split at hvisit
      · simp at hvisit
      next next hnext =>
        refine ih ?_ hvisit
        rcases visitCheckpoint_ok hnext with ⟨-, rfl⟩ | ⟨-, -, -, -, -, hcommit, -⟩
        · exact hfound
        · exact ⟨trivial, next.snapshotIndex.toNat_lt, hcommit⟩

theorem recoverSegments_usable {segments : List Segment} {read : RecoveredState × List Segment}
    (hrecover : recoverSegments json segments = .ok read) :
    read.1.Usable ∧ ∃ checkpoint records,
      newestCompactionCheckpoint json {} segments = .ok checkpoint ∧
      directoryRecords json segments = .ok records ∧ checkpoint.start.Usable ∧
      Record.replayAll checkpoint.start records = .ok read.1 := by
  obtain ⟨frames, -, hrecovers, -, hvisit⟩ := recoverSegments_parsed hrecover
  obtain ⟨checkpoint, hcheckpoint, hreplay⟩ := hrecovers.replayed
  have hempty : ({} : CompactionCheckpoint).start.Usable :=
    ⟨trivial, Nat.two_pow_pos 64, UInt64.le_rfl⟩
  have hstart := visitFrames_start_usable hempty hcheckpoint
  have hrecords := replayFrames_records hreplay
  refine ⟨Record.replayAll_usable hstart hrecords, checkpoint, _, ?_, ?_, hstart, hrecords⟩
  · rw [newestCompactionCheckpoint_eq, hvisit, hcheckpoint]
  · rw [directoryRecords, hvisit, visitFrames_records, List.nil_append]

end Directory

/-! ## The core built from a recovered state -/

/-- The entry types the core knows, by the byte the WAL stores. -/
def coreType? : UInt8 → Option Raft.EntryType
  | 0 => some .noOp
  | 1 => some .openSession
  | 2 => some .closeSession
  | 3 => some .set
  | 4 => some .delete
  | _ => none

def LogEntry.core? (entry : LogEntry) : Option Raft.LogEntry :=
  (coreType? entry.type).map fun type =>
    { index := entry.index.toNat
      term := entry.term.toNat
      type := type
      sessionID := entry.sessionID
      sequence := entry.sequence
      key := entry.key
      value := entry.value }

/--
The core `openRaftRuntime` builds over a Snapshot at `snapshotIndex`, which is the
WAL's own or a later one it has not recorded; `none` for an unsupported entry.
-/
def RecoveredState.core? (recovered : RecoveredState) (id : NodeID) (peers : List NodeID)
    (snapshotIndex snapshotTerm : Nat) : Option Raft.Node :=
  (recovered.log.mapM LogEntry.core?).map fun log =>
    Raft.newNodeFromRecoveredState id peers
      { hardState := ⟨recovered.hardState.term.toNat, recovered.hardState.votedFor⟩
        log := log.dropWhile fun entry => entry.index ≤ snapshotIndex
        commitIndex := recovered.commitIndex.toNat
        snapshotIndex := snapshotIndex
        snapshotTerm := snapshotTerm }

theorem mapM_core_indexed {base : Nat} {entries : List LogEntry} {log : List Raft.LogEntry}
    (hcontiguous : Contiguous base entries) (hmap : entries.mapM LogEntry.core? = some log) :
    log.length = entries.length ∧
      ∀ i entry, log[i]? = some entry → entry.index = base + i + 1 := by
  induction entries generalizing base log with
  | nil =>
      cases hmap
      simp
  | cons first entries ih =>
      rw [List.mapM_cons] at hmap
      obtain ⟨head, hhead, hmapped⟩ := Option.bind_eq_some_iff.mp hmap
      obtain ⟨rest, hrest, hlog⟩ := Option.bind_eq_some_iff.mp hmapped
      cases hlog
      obtain ⟨hlength, hindexed⟩ := ih hcontiguous.2 hrest
      obtain ⟨type, -, rfl⟩ := Option.map_eq_some_iff.mp hhead
      refine ⟨by simp [hlength], fun i entry hentry => ?_⟩
      cases i with
      | zero =>
          cases hentry
          exact hcontiguous.1
      | succ i =>
          rw [hindexed i entry (by simpa using hentry)]
          omega

theorem dropWhile_indexed {base start : Nat} {log : List Raft.LogEntry}
    (hindexed : ∀ i entry, log[i]? = some entry → entry.index = base + i + 1)
    (hle : base ≤ start) :
    (log.dropWhile fun entry => entry.index ≤ start) = log.drop (start - base) := by
  induction log generalizing base with
  | nil => simp
  | cons first log ih =>
      have hfirst : first.index = base + 1 := hindexed 0 first rfl
      by_cases hbelow : base + 1 ≤ start
      · have hcount : start - base = (start - (base + 1)) + 1 := by omega
        rw [List.dropWhile_cons_of_pos (by simpa [hfirst] using hbelow), hcount,
          List.drop_succ_cons]
        refine ih (fun i entry hentry => ?_) hbelow
        rw [hindexed (i + 1) entry (by simpa using hentry)]
        omega
      · have hcount : start - base = 0 := by omega
        rw [List.dropWhile_cons_of_neg (by simpa [hfirst] using hbelow), hcount,
          List.drop_zero]

theorem applyLoop_reaches (count : Nat) (n : Raft.Node) (hbase : n.logBaseIndex ≤ n.lastApplied)
    (hinside : n.lastApplied + count ≤ n.logBaseIndex + n.log.length) :
    (n.applyLoop count).1.lastApplied = n.lastApplied + count := by
  induction count generalizing n with
  | zero => rfl
  | succ count ih =>
      rw [Raft.Node.applyLoop]
      split
      next hnone =>
        rw [List.getElem?_eq_none_iff] at hnone
        omega
      next entry hentry =>
        simp only
        rw [ih _ (by simp only; omega) (by simp only; omega)]
        simp only
        omega

theorem recoverCommitted_reaches {recovered : RecoveredState} {id : NodeID}
    {peers : List NodeID} {start term : Nat} {core : Raft.Node} (h : recovered.Usable)
    (hstart : recovered.snapshotIndex.toNat ≤ start)
    (hcommitted : start ≤ recovered.commitIndex.toNat)
    (hreached : recovered.commitIndex.toNat ≤ recovered.last)
    (hcore : recovered.core? id peers start term = some core) :
    (core.step .recoverCommitted).1.lastApplied = recovered.commitIndex.toNat := by
  obtain ⟨log, hlog, rfl⟩ := Option.map_eq_some_iff.mp hcore
  obtain ⟨hlength, hindexed⟩ := mapM_core_indexed h.contiguous hlog
  rw [dropWhile_indexed hindexed hstart]
  have hfirst : ∀ first rest, log.drop (start - recovered.snapshotIndex.toNat) = first :: rest →
      first.index = start + 1 := by
    intro first rest hcons
    have hhead : log[start - recovered.snapshotIndex.toNat]? = some first := by
      rw [← List.head?_drop, hcons]
      rfl
    rw [hindexed _ first hhead]
    omega
  rw [Raft.Node.newNodeFromRecoveredState_trimmed id peers hfirst]
  simp only [Raft.Node.step, Raft.Node.applyThrough]
  split
  next hdone => exact le_antisymm hcommitted hdone
  · simp only [Raft.Node.completeReads]
    rw [applyLoop_reaches _ _ le_rfl]
    · simp only
      omega
    · simp only [List.length_drop, hlength]
      rw [RecoveredState.last] at hreached
      omega

/-! ## Results -/

/-- What every core started over the recovered state may rely on. -/
structure RecoveredState.Applies (recovered : RecoveredState) : Prop where
  commit_le : recovered.commitIndex.toNat ≤ recovered.last
  applied : ∀ id peers start term core, recovered.snapshotIndex.toNat ≤ start →
    start ≤ recovered.commitIndex.toNat → recovered.core? id peers start term = some core →
    (core.step .recoverCommitted).1.lastApplied = recovered.commitIndex.toNat

theorem openWAL_ok {json : CheckpointJSON} {directory : List Segment} {identity : Identity}
    {size : Nat} {w : WAL} {recovered : RecoveredState}
    (hopen : openWAL json directory identity size = .ok (w, recovered)) :
    (blank identity.clusterID = false ∧ blank identity.nodeID = false) ∧
      segmentHeaderSize + frameHeaderSize < size ∧ recovered.identity = identity ∧
      ((directory = [] ∧ recovered = { identity := identity }) ∨
        ∃ files active, recoverSegments json directory = .ok (recovered, files ++ [active]) ∧
          w = resumeWAL identity size recovered files active) := by
  cases directory with
  | nil =>
      obtain ⟨hnamed, hsize, rfl, -⟩ := openWAL_created hopen
      exact ⟨hnamed, hsize, rfl, .inl ⟨rfl, rfl⟩⟩
  | cons segment segments =>
      simp only [openWAL] at hopen
      split at hopen
      · simp at hopen
      next hnamed =>
        split at hopen
        · simp at hopen
        next hsize =>
          refine ⟨by simpa using hnamed, Nat.not_le.mp hsize, ?_⟩
          simp only [openSegments] at hopen
          split at hopen
          · simp at hopen
          next state files hrecover =>
            split at hopen
            · simp at hopen
            next hidentity =>
              cases hopen
              rw [ne_eq, not_not] at hidentity
              obtain ⟨-, -, -, hnumbers, -⟩ := recoverSegments_parsed hrecover
              have hnonempty : files ≠ [] := by
                rintro rfl
                simp at hnumbers
              refine ⟨hidentity, .inr ⟨files.dropLast, files.getLast hnonempty, ?_, ?_⟩⟩
              · rw [List.dropLast_concat_getLast]
                exact hrecover
              · rw [List.getLast?_eq_some_getLast hnonempty, Option.getD_some]

end QuorumKV.Wal
