import QuorumKV.Wal.Files

/-!
# Calls preserve the representation

An open WAL represents a history when its files store records of that history
and its own fields agree with the live state.  The checks the WAL makes imply
the checks in terms of the live state, so every successful call carries the
representation over.
-/

namespace QuorumKV.Wal

open Foundation
open QuorumKV.Raft (Bytes)

/-- The WAL's own counters are those of the live state. -/
structure WAL.Agrees (w : WAL) (live : RecoveredState) : Prop where
  identity : w.identity = live.identity
  lastLogIndex : w.lastLogIndex = live.lastIndex
  commitIndex : w.commitIndex = live.commitIndex
  snapshotIndex : w.snapshotIndex = live.snapshotIndex
  snapshotTerm : w.snapshotTerm = live.snapshotTerm

/--
The WAL represents the history.  The hard state is represented only where the
saved hard states are `monotone`: replay ignores the others.
-/
structure Represents (json : CheckpointJSON) (monotone : Prop) (w : WAL) (t : Trace)
    (records : List Record) : Prop where
  stored : Stored json w records
  represented : RecordsFor t records
  voted : ∀ h, .hardState h ∈ records → ValidUTF8 h.votedFor
  hard : monotone → w.hardState = t.live.hardState ∧ HardFor t records
  wellFormed : t.WellFormed
  named : blank t.live.identity.clusterID = false ∧ blank t.live.identity.nodeID = false
  strings : ValidUTF8 t.live.identity.clusterID ∧ ValidUTF8 t.live.identity.nodeID
  held : ValidUTF8 w.hardState.votedFor
  agrees : w.Agrees t.live

section Calls

variable {json : CheckpointJSON} {monotone : Prop} {w w' : WAL} {t : Trace}
  {records : List Record} {operation : Operation}

theorem Outcome.succeeded_eq_some {outcome : Outcome} :
    Outcome.succeeded outcome = some w ↔ outcome = (w, none) := by
  obtain ⟨other, _ | e⟩ := outcome <;> simp [Outcome.succeeded]

theorem WAL.appendThen_ok {kind : RecordType} {payload : Bytes} {update : WAL → WAL}
    (hok : w.appendThen kind payload update = (w', none)) :
    ∃ appended, w.appendRecord kind payload = .ok appended ∧ w' = update appended := by
  simp only [WAL.appendThen] at hok
  split at hok
  · simp at hok
  · next appended happended =>
      cases hok
      exact ⟨appended, happended, rfl⟩

theorem WAL.saveLogEntries_ok {entries : List LogEntry}
    (hok : w.saveLogEntries entries = (w', none)) :
    WAL.orderError w.lastLogIndex entries = none ∧ ∃ appended,
      w.appendEntryRecords entries = (appended, none) ∧
      w' = { appended with
        lastLogIndex := appended.lastLogIndex + UInt64.ofNat entries.length } := by
  simp only [WAL.saveLogEntries] at hok
  split at hok
  · simp at hok
  · split at hok
    · simp at hok
    · next horder =>
        split at hok
        · simp at hok
        · next appended happended =>
            cases hok
            exact ⟨horder, appended, happended, rfl⟩

theorem WAL.truncateLog_ok {first : UInt64} (hok : w.truncateLog first = (w', none)) :
    first ≠ 0 ∧ first ≤ w.lastLogIndex + 1 ∧ w.commitIndex < first ∧ ∃ appended,
      w.appendRecord .logTruncation (putUint64 first) = .ok appended ∧
      w' = { appended with
        entryBytes := fun index =>
          if first ≤ index ∧ index ≤ appended.lastLogIndex then 0 else appended.entryBytes index
        lastLogIndex := first - 1 } := by
  simp only [WAL.truncateLog] at hok
  split at hok
  · simp at hok
  · next hinside =>
      simp only [not_or, gt_iff_lt, UInt64.not_lt] at hinside
      split at hok
      · simp at hok
      · next hcommit =>
          exact ⟨hinside.1, hinside.2, UInt64.not_le.mp hcommit, WAL.appendThen_ok hok⟩

theorem WAL.saveCommitIndex_ok {index : UInt64} (hok : w.saveCommitIndex index = (w', none)) :
    w.commitIndex ≤ index ∧ index ≤ w.lastLogIndex ∧
      ((index = w.commitIndex ∧ w' = w) ∨ (index ≠ w.commitIndex ∧ ∃ appended,
        w.appendRecord .commitIndex (putUint64 index) = .ok appended ∧
        w' = { appended with commitIndex := index })) := by
  simp only [WAL.saveCommitIndex] at hok
  split at hok
  · simp at hok
  · next hlow =>
      split at hok
      · simp at hok
      · next hhigh =>
          refine ⟨UInt64.not_lt.mp hlow, UInt64.not_lt.mp hhigh, ?_⟩
          split at hok
          · next hsame =>
              cases hok
              exact .inl ⟨hsame, rfl⟩
          · next hother => exact .inr ⟨hother, WAL.appendThen_ok hok⟩

theorem WAL.installSnapshotCheckpoint_ok {index term commit from' : UInt64}
    (hok : w.installSnapshotCheckpoint json index term commit from' = (w', none)) :
    ∃ appended, w.appendCheckpoint json
        ⟨w.identity, w.hardState, commit, index, term, from'⟩ = (appended, none) ∧
      w'.segments = (WAL.removeCovered index appended.segments).1 ∧
      w'.contents = appended.contents ∧ w'.segment = appended.segment := by
  simp only [WAL.installSnapshotCheckpoint] at hok
  split at hok
  · simp at hok
  · next appended happended =>
      refine ⟨appended, happended, ?_⟩
      split at hok
      · simp at hok
      · next segments hsegments =>
          cases hok
          rw [hsegments]
          exact ⟨rfl, rfl, rfl⟩

theorem WAL.compact_ok {index term : UInt64} (hok : w.compact json index term = (w', none)) :
    index ≠ 0 ∧ index ≤ w.commitIndex ∧
      w.installSnapshotCheckpoint json index term w.commitIndex 0 = (w', none) := by
  simp only [WAL.compact] at hok
  split at hok
  · simp at hok
  · next hinside =>
      simp only [not_or, gt_iff_lt, UInt64.not_lt] at hinside
      exact ⟨hinside.1, hinside.2, hok⟩

theorem WAL.installSnapshot_ok {index term : UInt64} {retain : Bool}
    (hok : w.installSnapshot json index term retain = (w', none)) :
    index ≠ 0 ∧ term ≠ 0 ∧ w.snapshotIndex ≤ index ∧
      (retain = false → w.commitIndex ≤ index) ∧
      ∃ installed, w.installSnapshotCheckpoint json index term (max w.commitIndex index)
          (if retain = false ∧ index < w.lastLogIndex then index + 1 else 0) =
            (installed, none) ∧
        w' = { installed with
          commitIndex := max installed.commitIndex index
          lastLogIndex :=
            if retain then max installed.lastLogIndex index else index } := by
  simp only [WAL.installSnapshot] at hok
  split at hok
  · simp at hok
  · next hposition =>
      simp only [not_or, UInt64.not_lt] at hposition
      split at hok
      · simp at hok
      · next hdiscard =>
          refine ⟨hposition.1, hposition.2.1, hposition.2.2, ?_, ?_⟩
          · intro hretain
            exact UInt64.not_lt.mp fun hlt => hdiscard ⟨hretain, hlt⟩
          · split at hok
            · simp at hok
            · next installed hinstalled =>
                cases hok
                exact ⟨installed, hinstalled, rfl⟩

/-! ## What a call changes -/

def recordSizes (sizes : UInt64 → UInt64) (entries : List LogEntry) : UInt64 → UInt64 :=
  entries.foldl (fun sizes entry => Function.update sizes entry.index
    (UInt64.ofNat (WAL.recordFrameSize (encodeEntryV3 entry)))) sizes

theorem WAL.prepareRecordBatch_files (w : WAL) (size : Nat) :
    ∃ segments segment contents, w.prepareRecordBatch size =
      { w with segments := segments, segment := segment, contents := contents } := by
  unfold WAL.prepareRecordBatch
  split
  · exact ⟨_, _, _, rfl⟩
  · exact ⟨_, _, _, rfl⟩

theorem WAL.appendRecordInSegment_files {kind : RecordType} {payload : Bytes}
    (hok : w.appendRecordInSegment kind payload = .ok w') :
    ∃ contents, w' = { w with contents := contents } := by
  simp only [WAL.appendRecordInSegment] at hok
  split at hok
  · simp at hok
  · cases hok
    exact ⟨_, rfl⟩

theorem WAL.appendRecord_files {kind : RecordType} {payload : Bytes}
    (hok : w.appendRecord kind payload = .ok w') :
    ∃ segments segment contents,
      w' = { w with segments := segments, segment := segment, contents := contents } := by
  simp only [WAL.appendRecord] at hok
  split at hok
  · simp at hok
  · obtain ⟨_, _, _, hprepared⟩ := w.prepareRecordBatch_files (WAL.recordFrameSize payload)
    rw [hprepared] at hok
    obtain ⟨_, rfl⟩ := WAL.appendRecordInSegment_files hok
    exact ⟨_, _, _, rfl⟩

theorem WAL.appendEntryRecords_files {entries : List LogEntry}
    (hok : w.appendEntryRecords entries = (w', none)) :
    ∃ segments segment contents,
      w' = { w with
        segments := segments
        segment := segment
        contents := contents
        entryBytes := recordSizes w.entryBytes entries } := by
  induction entries generalizing w with
  | nil =>
      cases hok
      exact ⟨_, _, _, rfl⟩
  | cons entry entries ih =>
      simp only [WAL.appendEntryRecords] at hok
      split at hok
      · simp at hok
      next appended happended =>
        obtain ⟨_, _, _, rfl⟩ := WAL.appendRecord_files happended
        obtain ⟨segments, segment, contents, rfl⟩ := ih hok
        exact ⟨segments, segment, contents, rfl⟩

theorem WAL.appendCheckpoint_files {c : CompactionCheckpoint}
    (hok : w.appendCheckpoint json c = (w', none)) :
    ∃ segments segment contents,
      w' = { w with segments := segments, segment := segment, contents := contents } := by
  simp only [WAL.appendCheckpoint] at hok
  obtain ⟨_, _, _, hprepared⟩ := w.prepareRecordBatch_files
    (WAL.recordFrameSize (json.marshal c) +
      if c.truncateFrom ≠ 0 then WAL.recordFrameSize (putUint64 c.truncateFrom) else 0)
  rw [hprepared] at hok
  split at hok
  · simp at hok
  next first hfirst =>
    obtain ⟨_, rfl⟩ := WAL.appendRecordInSegment_files hfirst
    split at hok
    · split at hok
      · simp at hok
      next second hsecond =>
        obtain ⟨_, rfl⟩ := WAL.appendRecordInSegment_files hsecond
        cases hok
        exact ⟨_, _, _, rfl⟩
    · cases hok
      exact ⟨_, _, _, rfl⟩

def sizesAbove (w : WAL) (snapshotIndex truncateFrom index : UInt64) : UInt64 :=
  if index ≤ snapshotIndex then 0
  else if truncateFrom ≠ 0 ∧ truncateFrom ≤ index ∧ index ≤ w.lastLogIndex then 0
  else w.entryBytes index

theorem WAL.installSnapshotCheckpoint_files {index term commit from' : UInt64}
    (hok : w.installSnapshotCheckpoint json index term commit from' = (w', none)) :
    ∃ segments segment contents,
      w' = { w with
        segments := segments
        segment := segment
        contents := contents
        snapshotIndex := index
        snapshotTerm := term
        retainedThroughIndex := index
        retainedBytes := 0
        entryBytes := sizesAbove w index from' } := by
  simp only [WAL.installSnapshotCheckpoint] at hok
  split at hok
  · simp at hok
  next appended happended =>
    obtain ⟨_, _, _, rfl⟩ := WAL.appendCheckpoint_files happended
    split at hok
    · simp at hok
    · cases hok
      exact ⟨_, _, _, rfl⟩

/-- Each counter of the WAL goes where the call takes the live state's. -/
structure WAL.Tracks (w w' : WAL) (live live' : RecoveredState) : Prop where
  identity : w.identity = live.identity → w'.identity = live'.identity
  hardState : w.hardState = live.hardState → w'.hardState = live'.hardState
  commitIndex : w.commitIndex = live.commitIndex → w'.commitIndex = live'.commitIndex
  snapshotIndex : w.snapshotIndex = live.snapshotIndex → w'.snapshotIndex = live'.snapshotIndex
  snapshotTerm : w.snapshotTerm = live.snapshotTerm → w'.snapshotTerm = live'.snapshotTerm

theorem WAL.perform_tracks (hreopen : ∀ size, operation ≠ .reopen size)
    (hok : w.perform json operation = some w') (live : RecoveredState) :
    w.Tracks w' live (live.perform operation) := by
  cases operation with
  | saveHardState state =>
      obtain ⟨_, happended, rfl⟩ := WAL.appendThen_ok (Outcome.succeeded_eq_some.mp hok)
      obtain ⟨_, _, _, rfl⟩ := WAL.appendRecord_files happended
      exact ⟨id, fun _ => rfl, id, id, id⟩
  | saveLogEntries entries =>
      obtain ⟨-, _, happended, rfl⟩ := WAL.saveLogEntries_ok (Outcome.succeeded_eq_some.mp hok)
      obtain ⟨_, _, _, rfl⟩ := WAL.appendEntryRecords_files happended
      exact ⟨id, id, id, id, id⟩
  | truncateLog first =>
      obtain ⟨-, -, -, _, happended, rfl⟩ := WAL.truncateLog_ok (Outcome.succeeded_eq_some.mp hok)
      obtain ⟨_, _, _, rfl⟩ := WAL.appendRecord_files happended
      exact ⟨id, id, id, id, id⟩
  | saveCommitIndex index =>
      obtain ⟨-, -, ⟨rfl, rfl⟩ | ⟨-, _, happended, rfl⟩⟩ :=
        WAL.saveCommitIndex_ok (Outcome.succeeded_eq_some.mp hok)
      · exact ⟨id, id, fun _ => rfl, id, id⟩
      · obtain ⟨_, _, _, rfl⟩ := WAL.appendRecord_files happended
        exact ⟨id, id, fun _ => rfl, id, id⟩
  | compact index term =>
      obtain ⟨-, -, hinstall⟩ := WAL.compact_ok (Outcome.succeeded_eq_some.mp hok)
      obtain ⟨_, _, _, rfl⟩ := WAL.installSnapshotCheckpoint_files hinstall
      exact ⟨id, id, id, fun _ => rfl, fun _ => rfl⟩
  | installSnapshot index term retain =>
      obtain ⟨-, -, -, -, _, hinstall, rfl⟩ :=
        WAL.installSnapshot_ok (Outcome.succeeded_eq_some.mp hok)
      obtain ⟨_, _, _, rfl⟩ := WAL.installSnapshotCheckpoint_files hinstall
      exact ⟨id, id, congrArg (max · index), fun _ => rfl, fun _ => rfl⟩
  | reopen size => exact absurd rfl (hreopen size)

theorem WAL.perform_hardState (hreopen : ∀ size, operation ≠ .reopen size)
    (hok : w.perform json operation = some w') :
    operation = .saveHardState w'.hardState ∨
      ((∀ state, operation ≠ .saveHardState state) ∧ w'.hardState = w.hardState) := by
  have hhard := (WAL.perform_tracks hreopen hok
    { identity := w.identity, hardState := w.hardState }).hardState rfl
  cases operation with
  | saveHardState state => exact .inl (congrArg _ hhard.symm)
  | _ => exact .inr ⟨by simp, hhard⟩

def WAL.appends (w : WAL) : Operation → Option (List Record)
  | .saveHardState state => some [.hardState state]
  | .saveLogEntries entries => some (entries.map .entry)
  | .truncateLog first => some [.truncation first]
  | .saveCommitIndex index => some (if index = w.commitIndex then [] else [.commit index])
  | .compact .. | .installSnapshot .. | .reopen _ => none

theorem Stored.perform {others : List Record} (h : Stored json w records)
    (happends : w.appends operation = some others) (hok : w.perform json operation = some w') :
    Stored json w' (records ++ others) := by
  cases operation with
  | saveHardState state =>
      obtain ⟨_, happended, rfl⟩ := WAL.appendThen_ok (Outcome.succeeded_eq_some.mp hok)
      cases happends
      exact (h.append (.hardState state) (by simp [Record.Plain]) (fun _ => trivial)
        happended).congr rfl rfl
  | saveLogEntries entries =>
      obtain ⟨-, _, happended, rfl⟩ := WAL.saveLogEntries_ok (Outcome.succeeded_eq_some.mp hok)
      cases happends
      exact (h.appendEntryRecords happended).congr rfl rfl
  | truncateLog first =>
      obtain ⟨-, -, -, _, happended, rfl⟩ := WAL.truncateLog_ok (Outcome.succeeded_eq_some.mp hok)
      cases happends
      exact (h.append (.truncation first) (by simp [Record.Plain]) (fun _ => trivial)
        happended).congr rfl rfl
  | saveCommitIndex index =>
      obtain ⟨-, -, ⟨hsame, rfl⟩ | ⟨hother, _, happended, rfl⟩⟩ :=
        WAL.saveCommitIndex_ok (Outcome.succeeded_eq_some.mp hok)
      · rw [WAL.appends, if_pos hsame] at happends
        cases happends
        rwa [List.append_nil]
      · rw [WAL.appends, if_neg hother] at happends
        cases happends
        exact (h.append (.commit index) (by simp [Record.Plain]) (fun _ => trivial)
          happended).congr rfl rfl
  | _ => simp [WAL.appends] at happends

/-! ## Snapshot calls -/

/-- The checkpoint `Compact` writes. -/
def WAL.compactCheckpoint (w : WAL) (index term : UInt64) : CompactionCheckpoint :=
  ⟨w.identity, w.hardState, w.commitIndex, index, term, 0⟩

/-- The checkpoint `InstallSnapshot` writes. -/
def WAL.installCheckpoint (w : WAL) (index term : UInt64) (retain : Bool) :
    CompactionCheckpoint :=
  ⟨w.identity, w.hardState, max w.commitIndex index, index, term,
    if retain = false ∧ index < w.lastLogIndex then index + 1 else 0⟩

def WAL.ReachedAt (w : WAL) (c : CompactionCheckpoint) (reached : Nat) : Prop :=
  c.snapshotIndex.toNat ≤ reached ∧ (c.truncateFrom = 0 → w.lastLogIndex.toNat ≤ reached)

structure WAL.Installs (json : CheckpointJSON) (w : WAL) (c : CompactionCheckpoint) (w' : WAL) :
    Prop where
  files : ∃ appended, w.appendCheckpoint json c = (appended, none) ∧
    w'.segments = (WAL.removeCovered c.snapshotIndex appended.segments).1 ∧
    w'.contents = appended.contents
  checkpoint : c.identity = w.identity ∧ c.hardState = w.hardState
  truncate : c.truncateFrom = 0 ∨ c.truncateFrom = c.snapshotIndex + 1
  identity : w'.identity = w.identity
  hardState : w'.hardState = w.hardState
  commitIndex : w'.commitIndex = c.commitIndex
  snapshotIndex : w'.snapshotIndex = c.snapshotIndex
  reached : ∀ reached, w.ReachedAt c reached → w'.lastLogIndex.toNat ≤ reached

theorem WAL.compact_installs {index term : UInt64} (hok : w.compact json index term = (w', none)) :
    w.Installs json (w.compactCheckpoint index term) w' := by
  obtain ⟨-, -, hinstall⟩ := WAL.compact_ok hok
  obtain ⟨appended, happended, hsegments, hcontents, -⟩ := WAL.installSnapshotCheckpoint_ok hinstall
  obtain ⟨_, _, _, rfl⟩ := WAL.installSnapshotCheckpoint_files hinstall
  exact ⟨⟨appended, happended, hsegments, hcontents⟩, ⟨rfl, rfl⟩, .inl rfl, rfl, rfl, rfl, rfl,
    fun reached hreached => hreached.2 rfl⟩

theorem WAL.installSnapshot_installs {index term : UInt64} {retain : Bool}
    (hok : w.installSnapshot json index term retain = (w', none)) :
    w.Installs json (w.installCheckpoint index term retain) w' := by
  obtain ⟨-, -, -, -, installed, hinstall, rfl⟩ := WAL.installSnapshot_ok hok
  obtain ⟨appended, happended, hsegments, hcontents, -⟩ := WAL.installSnapshotCheckpoint_ok hinstall
  obtain ⟨_, _, _, rfl⟩ := WAL.installSnapshotCheckpoint_files hinstall
  refine ⟨⟨appended, happended, hsegments, hcontents⟩, ⟨rfl, rfl⟩, ?_, rfl, rfl, rfl, rfl,
    fun reached hreached => ?_⟩
  · simp only [WAL.installCheckpoint]
    split
    · exact .inr rfl
    · exact .inl rfl
  · obtain ⟨hreached, hkeeps⟩ := hreached
    simp only [WAL.installCheckpoint] at hreached hkeeps
    cases retain with
    | false => simpa using hreached
    | true =>
        simp only [Bool.true_eq_false, false_and, if_false, forall_const] at hkeeps
        simp only [if_true, UInt64.toNat_max]
        omega

theorem Stored.installed {c : CompactionCheckpoint} (h : Stored json w records)
    (hstrings : c.ValidStrings) (hinstalls : w.Installs json c w') :
    ∃ blocks front, blockRecords blocks ++ front = records ∧
      (∀ block ∈ blocks, Paired block.records) ∧
      Stored json w' (blockRecords (uncovered c.snapshotIndex blocks) ++
        (front ++ checkpointRecords c)) := by
  obtain ⟨appended, happended, hsegments, hcontents⟩ := hinstalls.files
  obtain ⟨blocks, front, hholds, hpaired, heq⟩ :=
    h.appendCheckpoint hstrings hinstalls.truncate happended
  refine ⟨blocks, front, heq, hpaired.1, uncovered c.snapshotIndex blocks,
    front ++ checkpointRecords c, ⟨?_, hcontents.trans hholds.contents, fun r hr => ?_⟩, ?_, rfl⟩
  · rw [hsegments, hholds.segments, removeCovered_written fun r hr =>
      hholds.writable r (List.mem_append.mpr (.inl hr))]
  · exact hholds.writable r (mem_uncovered_append hr)
  · exact ⟨fun block hblock => hpaired.1 block (List.mem_filter.mp hblock).1, hpaired.2⟩

theorem toNat_pred {index : UInt64} (h : index ≠ 0) : (index - 1).toNat = index.toNat - 1 := by
  have hpositive : index.toNat ≠ 0 := fun hnat => h (UInt64.toNat_inj.mp hnat)
  rw [UInt64.toNat_sub_of_le]
  · rfl
  · rw [UInt64.le_iff_toNat_le]
    simp only [UInt64.reduceToNat]
    omega

/-! ## The WAL's checks, in terms of the live state -/

theorem orderError_none {last : UInt64} {entries : List LogEntry}
    (horder : WAL.orderError last entries = none)
    (hroom : last.toNat + entries.length < 2 ^ 64) : Contiguous last.toNat entries := by
  induction entries generalizing last with
  | nil => trivial
  | cons entry entries ih =>
      simp only [WAL.orderError] at horder
      split at horder
      · simp at horder
      · next hindex =>
          rw [List.length_cons] at hroom
          have hnext : (last + 1).toNat = last.toNat + 1 := by
            rw [UInt64.toNat_add]
            simp only [UInt64.reduceToNat]
            omega
          rw [not_not] at hindex
          refine ⟨by rw [hindex, hnext], ?_⟩
          rw [← hnext]
          exact ih horder (by omega)

/--
A call that succeeds is one the live state accepts, where appends do not run past the last
index and compactions do not go back.
-/
theorem WAL.Agrees.accepts (hagrees : w.Agrees t.live) (hwf : t.WellFormed)
    (hroom : ∀ entries, operation = .saveLogEntries entries →
      t.live.lastIndex.toNat + entries.length < 2 ^ 64)
    (hforward : ∀ index term, operation = .compact index term → t.live.snapshotIndex ≤ index)
    (hok : w.perform json operation = some w') : t.Accepts operation := by
  have hlast := hwf.lastIndex
  cases operation with
  | saveHardState state => trivial
  | saveLogEntries entries =>
      obtain ⟨horder, -⟩ := WAL.saveLogEntries_ok (Outcome.succeeded_eq_some.mp hok)
      rw [hagrees.lastLogIndex] at horder
      have hroom := hroom entries rfl
      rw [Trace.Accepts, ← hlast]
      exact ⟨orderError_none horder hroom, hroom⟩
  | truncateLog first =>
      obtain ⟨hzero, hinside, hcommit, -⟩ :=
        WAL.truncateLog_ok (Outcome.succeeded_eq_some.mp hok)
      rw [hagrees.lastLogIndex, UInt64.le_iff_toNat_le, UInt64.toNat_add, hlast] at hinside
      rw [hagrees.commitIndex, UInt64.lt_iff_toNat_lt] at hcommit
      have hpositive : first.toNat ≠ 0 := fun h => hzero (UInt64.toNat_inj.mp h)
      have hbound := hwf.bound
      simp only [UInt64.reduceToNat] at hinside
      refine ⟨hcommit, ?_, ?_⟩ <;> omega
  | saveCommitIndex index =>
      obtain ⟨hlow, hhigh, -⟩ := WAL.saveCommitIndex_ok (Outcome.succeeded_eq_some.mp hok)
      rw [hagrees.commitIndex, UInt64.le_iff_toNat_le] at hlow
      rw [hagrees.lastLogIndex, UInt64.le_iff_toNat_le, hlast] at hhigh
      exact ⟨hlow, hhigh⟩
  | compact index term =>
      obtain ⟨hzero, hinside, -⟩ := WAL.compact_ok (Outcome.succeeded_eq_some.mp hok)
      rw [hagrees.commitIndex] at hinside
      exact ⟨UInt64.le_iff_toNat_le.mp (hforward index term rfl),
        UInt64.le_iff_toNat_le.mp hinside, hzero⟩
  | installSnapshot index term retain =>
      obtain ⟨hzero, -, hnewer, hdiscard, -⟩ :=
        WAL.installSnapshot_ok (Outcome.succeeded_eq_some.mp hok)
      rw [hagrees.snapshotIndex] at hnewer
      rw [hagrees.commitIndex] at hdiscard
      exact ⟨UInt64.le_iff_toNat_le.mp hnewer,
        fun h => UInt64.le_iff_toNat_le.mp (hdiscard h), hzero⟩
  | reopen size => trivial

theorem Represents.accepts (hrep : Represents json monotone w t records)
    (hregular : t.Regular operation) (hmeets : t.Meets operation)
    (hok : w.perform json operation = some w') : t.Accepts operation := by
  refine hrep.agrees.accepts hrep.wellFormed ?_ ?_ hok
  · rintro entries rfl
    exact hmeets
  · rintro index term rfl
    exact hregular.1

theorem lastIndex_perform {index : UInt64} (hwf : t.WellFormed) (haccepts : t.Accepts operation)
    (hindex : index.toNat = t.lastAfter operation) :
    index = (t.perform operation).live.lastIndex := by
  apply UInt64.toNat_inj.mp
  rw [(hwf.perform haccepts).lastIndex, hwf.last_perform haccepts, hindex]

theorem WAL.Agrees.perform (h : w.Agrees t.live) (hwf : t.WellFormed)
    (haccepts : t.Accepts operation) (hreopen : ∀ size, operation ≠ .reopen size)
    (hok : w.perform json operation = some w') : w'.Agrees (t.perform operation).live := by
  have htracks := WAL.perform_tracks hreopen hok t.live
  refine ⟨htracks.identity h.identity, ?_, htracks.commitIndex h.commitIndex,
    htracks.snapshotIndex h.snapshotIndex, htracks.snapshotTerm h.snapshotTerm⟩
  have hlast := h.lastLogIndex
  cases operation with
  | saveHardState state =>
      obtain ⟨_, happended, rfl⟩ := WAL.appendThen_ok (Outcome.succeeded_eq_some.mp hok)
      obtain ⟨_, _, _, rfl⟩ := WAL.appendRecord_files happended
      exact hlast
  | saveLogEntries entries =>
      obtain ⟨-, _, happended, rfl⟩ := WAL.saveLogEntries_ok (Outcome.succeeded_eq_some.mp hok)
      obtain ⟨_, _, _, rfl⟩ := WAL.appendEntryRecords_files happended
      apply lastIndex_perform hwf haccepts
      have hroom := haccepts.2
      simp only [hlast, UInt64.toNat_add, UInt64.toNat_ofNat', hwf.lastIndex, Trace.lastAfter]
      omega
  | truncateLog first =>
      obtain ⟨hzero, -, -, _, happended, rfl⟩ :=
        WAL.truncateLog_ok (Outcome.succeeded_eq_some.mp hok)
      obtain ⟨_, _, _, rfl⟩ := WAL.appendRecord_files happended
      exact lastIndex_perform hwf haccepts (toNat_pred hzero)
  | saveCommitIndex index =>
      obtain ⟨-, -, ⟨-, rfl⟩ | ⟨-, _, happended, rfl⟩⟩ :=
        WAL.saveCommitIndex_ok (Outcome.succeeded_eq_some.mp hok)
      · exact hlast
      · obtain ⟨_, _, _, rfl⟩ := WAL.appendRecord_files happended
        exact hlast
  | compact index term =>
      obtain ⟨-, -, hinstall⟩ := WAL.compact_ok (Outcome.succeeded_eq_some.mp hok)
      obtain ⟨_, _, _, rfl⟩ := WAL.installSnapshotCheckpoint_files hinstall
      exact lastIndex_perform hwf haccepts (hlast ▸ hwf.lastIndex)
  | installSnapshot index term retain =>
      obtain ⟨-, -, -, -, _, hinstall, rfl⟩ :=
        WAL.installSnapshot_ok (Outcome.succeeded_eq_some.mp hok)
      obtain ⟨_, _, _, rfl⟩ := WAL.installSnapshotCheckpoint_files hinstall
      apply lastIndex_perform hwf haccepts
      cases retain with
      | false => rfl
      | true =>
          simp only [if_true, UInt64.toNat_max, hlast, hwf.lastIndex, Trace.lastAfter]
          exact max_comm _ _
  | reopen size => exact absurd rfl (hreopen size)

/-! ## Representation after a call -/

theorem Trace.recordsOf_voted {hardState : HardState} (hregular : t.Regular operation) :
    ∀ h, .hardState h ∈ t.recordsOf hardState operation → ValidUTF8 h.votedFor := by
  intro h hh
  rcases t.recordsOf_hard hardState operation with ⟨state, rfl⟩ | ⟨hnone, -⟩
  · simp only [recordsOf, List.mem_singleton, Record.hardState.injEq] at hh
    rw [hh]
    exact hregular
  · exact absurd hh (hnone h)

theorem Represents.held_perform (hrep : Represents json monotone w t records)
    (hreopen : ∀ size, operation ≠ .reopen size) (hregular : t.Regular operation)
    (hok : w.perform json operation = some w') : ValidUTF8 w'.hardState.votedFor := by
  rcases WAL.perform_hardState hreopen hok with hstate | ⟨-, hsame⟩
  · rw [hstate] at hregular
    exact hregular
  · exact hsame ▸ hrep.held

theorem Represents.append {others : List Record} (hrep : Represents json monotone w t records)
    (haccepts : t.Accepts operation) (hregular : t.Regular operation)
    (hmonotone : monotone → t.Monotone operation) (happends : w.appends operation = some others)
    (hok : w.perform json operation = some w') :
    ∃ records', Represents json monotone w' (t.perform operation) records' := by
  have hreopen : ∀ size, operation ≠ .reopen size := by
    rintro size rfl
    simp [WAL.appends] at happends
  have hstored := hrep.stored.perform happends hok
  obtain rfl : others = t.recordsOf w.hardState operation := by
    cases operation with
    | saveCommitIndex index =>
        rw [WAL.appends, hrep.agrees.commitIndex] at happends
        exact (Option.some.inj happends).symm
    | _ => first
      | exact (Option.some.inj happends).symm
      | simp [WAL.appends] at happends
  refine ⟨_, hstored, hrep.represented.perform w.hardState hrep.wellFormed hrep.named haccepts
    hregular, fun h hh => ?_, fun hm => ?_, hrep.wellFormed.perform haccepts,
    (t.perform_identity operation).symm ▸ hrep.named,
    (t.perform_identity operation).symm ▸ hrep.strings,
    hrep.held_perform hreopen hregular hok, hrep.agrees.perform hrep.wellFormed haccepts hreopen hok⟩
  · rcases List.mem_append.mp hh with hold | hnew
    · exact hrep.voted h hold
    · exact Trace.recordsOf_voted hregular h hnew
  · obtain ⟨hsame, hfor⟩ := hrep.hard hm
    exact ⟨(WAL.perform_tracks hreopen hok t.live).hardState hsame,
      hfor.perform (hmonotone hm) hsame⟩

theorem Represents.installed {c : CompactionCheckpoint} (hrep : Represents json monotone w t records)
    (haccepts : t.Accepts operation) (hregular : t.Regular operation)
    (hmonotone : monotone → t.Monotone operation)
    (hrecords : t.recordsOf w.hardState operation = checkpointRecords c)
    (hindex : c.snapshotIndex = (t.perform operation).live.snapshotIndex)
    (hcommit : (t.perform operation).checkpointCommit = (t.perform operation).live.commitIndex)
    (hlive : (t.perform operation).live.hardState = t.live.hardState)
    (hinstalls : w.Installs json c w') (hagrees : w'.Agrees (t.perform operation).live) :
    ∃ records', Represents json monotone w' (t.perform operation) records' := by
  obtain ⟨hidentity, hcheckpoint⟩ := hinstalls.checkpoint
  have hsame : c.identity = t.live.identity := hidentity.trans hrep.agrees.identity
  have hstrings : c.ValidStrings :=
    ⟨hsame ▸ hrep.strings.1, hsame ▸ hrep.strings.2, hcheckpoint ▸ hrep.held⟩
  obtain ⟨blocks, front, rfl, hpaired, hstored⟩ := hrep.stored.installed hstrings hinstalls
  have hsplit : blockRecords blocks ++ front ++ t.recordsOf w.hardState operation =
      blockRecords blocks ++ (front ++ checkpointRecords c) := by
    rw [hrecords, List.append_assoc]
  have hfor := hrep.represented.perform w.hardState hrep.wellFormed hrep.named haccepts hregular
  rw [hsplit] at hfor
  refine ⟨_, hstored, ?_, fun h hh => ?_, fun hm => ?_, hrep.wellFormed.perform haccepts,
    (t.perform_identity operation).symm ▸ hrep.named,
    (t.perform_identity operation).symm ▸ hrep.strings, hinstalls.hardState ▸ hrep.held, hagrees⟩
  · rw [hindex]
    exact hfor.delete (checkpointRecords_plain c) hcommit hpaired
  · have hmem := mem_uncovered_append hh
    rw [← hsplit] at hmem
    rcases List.mem_append.mp hmem with hold | hnew
    · exact hrep.voted h hold
    · exact Trace.recordsOf_voted hregular h hnew
  · obtain ⟨hsame, hhard⟩ := hrep.hard hm
    have hafter := hhard.perform (hmonotone hm) hsame
    rw [hsplit] at hafter
    refine ⟨by rw [hinstalls.hardState, hsame, hlive],
      hafter.delete (checkpointRecords_plain c) ?_⟩
    rw [hcheckpoint, hsame, hlive]

theorem Represents.recordsOf_install {index term : UInt64} {retain : Bool}
    (hrep : Represents json monotone w t records)
    (haccepts : t.Accepts (.installSnapshot index term retain))
    (hregular : t.Regular (.installSnapshot index term retain)) :
    t.recordsOf w.hardState (.installSnapshot index term retain) =
      checkpointRecords (w.installCheckpoint index term retain) := by
  simp only [Trace.recordsOf, checkpointRecords, Trace.checkpointOf, WAL.installCheckpoint,
    hrep.agrees.identity, hrep.agrees.commitIndex, hrep.agrees.lastLogIndex]
  split
  · next hcut =>
      have hnonzero := (Trace.recordsOf_valid w.hardState hrep.named haccepts hregular
        (.truncation (index + 1)) (by simp [Trace.recordsOf, hcut])).2.2
      simp only [ne_eq, Record.truncation.injEq] at hnonzero
      simp [hnonzero]
  · simp

end Calls

end QuorumKV.Wal
