import QuorumKV.Wal.Extent

/-!
# Retained bytes

`RetainedLogBytes` of `wal.go`: the frame bytes of the entries above the Snapshot, added up
only as far as they have been asked for.  Every call edits the size of each index it writes
or removes; the cursor and the total it stands for are reset by Snapshots and reopens alone.
The total is right as long as nothing at or below the cursor changes, which the commit
index guarantees.
-/

namespace QuorumKV.Wal

open Foundation
open QuorumKV.Raft (Bytes)

def LogEntry.frameBytes (entry : LogEntry) : Nat :=
  (frame RecordType.logEntryV3.toByte (encodeEntryV3 entry)).length

theorem recordFrameSize_entry (entry : LogEntry) :
    WAL.recordFrameSize (encodeEntryV3 entry) = entry.frameBytes :=
  (frame_length _ _).symm

def RecoveredState.retained (live : RecoveredState) (throughIndex : UInt64) : Nat :=
  ((live.log.filter fun entry =>
    live.snapshotIndex < entry.index ∧ entry.index ≤ throughIndex).map LogEntry.frameBytes).sum

/-! ## Uses of a WAL -/

inductive Use where
  | call (operation : Operation)
  | query (throughIndex : UInt64)
  deriving DecidableEq, Repr

def Operation.installs : Operation → Bool
  | .compact .. | .installSnapshot .. => true
  | _ => false

/--
An open WAL, what is live in it since it was opened, and the indexes queried since the last
Snapshot call or reopen.
-/
structure Owned where
  wal : WAL
  live : RecoveredState
  queried : List UInt64 := []

namespace Owned

def perform (json : CheckpointJSON) (o : Owned) : Use → Option Owned
  | .query throughIndex =>
      some { o with
        wal := (o.wal.retainedLogBytes throughIndex).1
        queried := throughIndex :: o.queried }
  | .call (.reopen size) =>
      match openWAL json o.wal.directory o.wal.identity size with
      | .error _ => none
      | .ok (w, recovered) => some ⟨w, recovered, []⟩
  | .call operation =>
      (o.wal.perform json operation).map fun w =>
        ⟨w, o.live.perform operation, if operation.installs then [] else o.queried⟩

def performAll (json : CheckpointJSON) (o : Owned) : List Use → Option Owned
  | [] => some o
  | use :: uses => (o.perform json use).bind fun next => next.performAll json uses

def Permits (o : Owned) : Use → Prop
  | .query throughIndex => throughIndex ≤ o.wal.commitIndex
  | .call (.saveHardState state) => ValidUTF8 state.votedFor
  | .call (.saveLogEntries entries) => o.live.lastIndex.toNat + entries.length < 2 ^ 64
  | .call (.compact index _) => o.live.snapshotIndex ≤ index
  | .call _ => True

instance (o : Owned) : ∀ use, Decidable (o.Permits use)
  | .query throughIndex => inferInstanceAs (Decidable (throughIndex ≤ o.wal.commitIndex))
  | .call (.saveHardState state) =>
      inferInstanceAs (Decidable (ByteArray.IsValidUTF8 ⟨state.votedFor.toArray⟩))
  | .call (.saveLogEntries entries) =>
      inferInstanceAs (Decidable (o.live.lastIndex.toNat + entries.length < 2 ^ 64))
  | .call (.compact index _) => inferInstanceAs (Decidable (o.live.snapshotIndex ≤ index))
  | .call (.truncateLog _) | .call (.saveCommitIndex _) | .call (.installSnapshot ..)
  | .call (.reopen _) => isTrue trivial

def Along (json : CheckpointJSON) (P : Owned → Use → Prop) (o : Owned) : List Use → Prop
  | [] => True
  | use :: uses => P o use ∧ ∀ next, o.perform json use = some next → next.Along json P uses

end Owned

/-! ## Sizes and sums -/

theorem Contiguous.le_last {base : Nat} {log : List LogEntry} (h : Contiguous base log)
    {entry : LogEntry} (hentry : entry ∈ log) : entry.index.toNat ≤ base + log.length := by
  obtain ⟨offset, hoffset⟩ := List.mem_iff_getElem?.mp hentry
  have hindex := h.index_eq hoffset
  obtain ⟨hlt, -⟩ := List.getElem?_eq_some_iff.mp hoffset
  omega

theorem Contiguous.filter_between {base : Nat} {log : List LogEntry} (h : Contiguous base log)
    {low : UInt64} (hlow : low.toNat ≤ base) (high : UInt64) :
    (log.filter fun entry => low < entry.index ∧ entry.index ≤ high) =
      log.take (high.toNat - base) := by
  induction log generalizing base with
  | nil => simp
  | cons entry log ih =>
      have hindex := h.1
      have habove : low < entry.index := by
        rw [UInt64.lt_iff_toNat_lt]
        omega
      have hrest := ih h.2 (hlow.trans (Nat.le_succ base))
      by_cases hhigh : entry.index ≤ high
      · rw [UInt64.le_iff_toNat_le] at hhigh
        have hsucc : high.toNat - base = (high.toNat - (base + 1)) + 1 := by omega
        rw [hsucc, List.take_succ_cons, ← hrest,
          List.filter_cons_of_pos (by simpa [habove, UInt64.le_iff_toNat_le] using hhigh)]
      · have hzero : high.toNat - (base + 1) = 0 := by
          rw [UInt64.le_iff_toNat_le] at hhigh
          omega
        have hbase : high.toNat - base = 0 := by
          rw [UInt64.le_iff_toNat_le] at hhigh
          omega
        rw [List.filter_cons_of_neg (by simp [hhigh]), hrest, hzero, hbase]
        simp

theorem recordSizes_cons (sizes : UInt64 → UInt64) (entry : LogEntry) (entries : List LogEntry) :
    recordSizes sizes (entry :: entries) =
      recordSizes (Function.update sizes entry.index (UInt64.ofNat entry.frameBytes)) entries := by
  rw [← recordFrameSize_entry]
  rfl

theorem recordSizes_other (entries : List LogEntry) {sizes : UInt64 → UInt64} {index : UInt64}
    (h : ∀ entry ∈ entries, entry.index ≠ index) :
    recordSizes sizes entries index = sizes index := by
  induction entries generalizing sizes with
  | nil => rfl
  | cons entry entries ih =>
      rw [recordSizes_cons, ih fun other hother => h other (List.mem_cons_of_mem _ hother),
        Function.update_of_ne (h entry List.mem_cons_self).symm]

theorem recordSizes_mem {base : Nat} {entries : List LogEntry} (h : Contiguous base entries)
    {sizes : UInt64 → UInt64} {entry : LogEntry} (hentry : entry ∈ entries) :
    recordSizes sizes entries entry.index = UInt64.ofNat entry.frameBytes := by
  induction entries generalizing base sizes with
  | nil => simp at hentry
  | cons first entries ih =>
      rw [recordSizes_cons]
      rcases List.mem_cons.mp hentry with rfl | hrest
      · rw [recordSizes_other entries fun other hmem heq => ?_, Function.update_self]
        have habove := h.2.above other hmem
        rw [heq, h.1] at habove
        omega
      · exact ih h.2 hrest

theorem RecoveredState.retained_succ {live : RecoveredState}
    (h : Contiguous live.snapshotIndex.toNat live.log) {index : UInt64}
    (hbase : live.snapshotIndex.toNat ≤ index.toNat)
    (hlast : index.toNat < live.snapshotIndex.toNat + live.log.length) :
    ∃ entry ∈ live.log, entry.index = index + 1 ∧
      live.retained (index + 1) = live.retained index + entry.frameBytes := by
  have hbound := contiguous_bound h
  have hsucc : (index + 1).toNat = index.toNat + 1 := by
    rw [UInt64.toNat_add]
    exact Nat.mod_eq_of_lt (by simp only [UInt64.reduceToNat]; omega)
  have hlt : index.toNat - live.snapshotIndex.toNat < live.log.length := by omega
  have hfound := List.getElem?_eq_getElem hlt
  have hindex := h.index_eq hfound
  refine ⟨_, List.getElem_mem hlt, UInt64.toNat_inj.mp (by omega), ?_⟩
  have hcount : (index + 1).toNat - live.snapshotIndex.toNat =
      index.toNat - live.snapshotIndex.toNat + 1 := by omega
  rw [retained, retained, h.filter_between le_rfl, h.filter_between le_rfl, hcount,
    List.take_succ_eq_append_getElem hlt, List.map_append, List.sum_append]
  rfl

theorem RecoveredState.retained_below {live : RecoveredState} {index : UInt64}
    (h : index ≤ live.snapshotIndex) : live.retained index = 0 := by
  have hnone : (live.log.filter fun entry => live.snapshotIndex < entry.index ∧
      entry.index ≤ index) = [] := by
    rw [List.filter_eq_nil_iff]
    intro entry _ hbetween
    obtain ⟨habove, hbelow⟩ := of_decide_eq_true hbetween
    exact UInt64.not_le.mpr habove (UInt64.le_trans hbelow h)
  simp only [retained, hnone, List.map_nil, List.sum_nil]

theorem RecoveredState.retained_append {live : RecoveredState} {entries : List LogEntry}
    {index : UInt64} (h : ∀ entry ∈ entries, index < entry.index) :
    ({ live with log := live.log ++ entries } : RecoveredState).retained index =
      live.retained index := by
  have hnone : (entries.filter fun entry =>
      live.snapshotIndex < entry.index ∧ entry.index ≤ index) = [] := by
    rw [List.filter_eq_nil_iff]
    intro entry hentry hbetween
    exact UInt64.not_le.mpr (h entry hentry) (of_decide_eq_true hbetween).2
  simp only [retained, List.filter_append, hnone, List.append_nil]

theorem RecoveredState.retained_truncate {live : RecoveredState} {first index : UInt64}
    (h : index < first) :
    ({ live with log := live.log.filter fun entry => entry.index < first } :
      RecoveredState).retained index = live.retained index := by
  have hsame : ((live.log.filter fun entry => entry.index < first).filter fun entry =>
      live.snapshotIndex < entry.index ∧ entry.index ≤ index) =
      live.log.filter fun entry => live.snapshotIndex < entry.index ∧ entry.index ≤ index := by
    rw [List.filter_filter]
    refine List.filter_congr fun entry _ => ?_
    rw [Bool.and_eq_left_iff_imp, decide_eq_true_iff, decide_eq_true_iff]
    exact fun hbetween => UInt64.lt_of_le_of_lt hbetween.2 h
  simp only [retained, hsame]

/-! ## The account -/

structure Owned.Accounted (json : CheckpointJSON) (o : Owned) : Prop where
  spans : ∃ records, Spans json o.wal records
  agrees : o.wal.Agrees o.live
  wellFormed : ({ live := o.live } : Trace).WellFormed
  sizes : ∀ entry ∈ o.live.log, o.wal.entryBytes entry.index = UInt64.ofNat entry.frameBytes
  cursor_ge : o.live.snapshotIndex ≤ o.wal.retainedThroughIndex
  cursor_le : o.wal.retainedThroughIndex ≤ o.live.commitIndex
  cursor : o.wal.retainedThroughIndex = o.live.snapshotIndex ∨
    o.wal.retainedThroughIndex ∈ o.queried
  bytes : o.wal.retainedBytes = UInt64.ofNat (o.live.retained o.wal.retainedThroughIndex)

namespace Owned

variable {json : CheckpointJSON} {o next : Owned} {w' : WAL}

theorem perform_call {operation : Operation} (h : ∀ size, operation ≠ .reopen size) :
    o.perform json (.call operation) = (o.wal.perform json operation).map fun w =>
      ⟨w, o.live.perform operation, if operation.installs then [] else o.queried⟩ := by
  cases operation with
  | reopen size => exact absurd rfl (h size)
  | _ => rfl

theorem Accounted.accepts (h : o.Accounted json) {operation : Operation}
    (hpermits : o.Permits (.call operation)) (hok : o.wal.perform json operation = some w') :
    ({ live := o.live } : Trace).Accepts operation := by
  refine h.agrees.accepts h.wellFormed ?_ ?_ hok
  · rintro entries rfl
    exact hpermits
  · rintro index term rfl
    exact hpermits

theorem wellFormed_perform {live : RecoveredState} {operation : Operation}
    (h : ({ live := live } : Trace).WellFormed)
    (haccepts : ({ live := live } : Trace).Accepts operation) :
    ({ live := live.perform operation } : Trace).WellFormed := by
  have hnext := h.perform haccepts
  exact ⟨hnext.contiguous, hnext.bound, hnext.snapshot_le, hnext.commit_le, Nat.zero_le _⟩

theorem Accounted.contiguous (h : o.Accounted json) :
    Contiguous o.live.snapshotIndex.toNat o.live.log := h.wellFormed.contiguous

theorem Accounted.cursor_last (h : o.Accounted json) :
    o.wal.retainedThroughIndex.toNat ≤ o.live.snapshotIndex.toNat + o.live.log.length := by
  have hcommit := h.wellFormed.commit_le
  have hcursor := UInt64.le_iff_toNat_le.mp h.cursor_le
  simp only [Trace.last] at hcommit
  omega

theorem Accounted.of_perform (h : o.Accounted json) {operation : Operation}
    (hreopen : ∀ size, operation ≠ .reopen size) (hpermits : o.Permits (.call operation))
    (hok : o.wal.perform json operation = some w') (queried : List UInt64)
    (hsizes : ∀ entry ∈ (o.live.perform operation).log,
      w'.entryBytes entry.index = UInt64.ofNat entry.frameBytes)
    (hge : (o.live.perform operation).snapshotIndex ≤ w'.retainedThroughIndex)
    (hle : w'.retainedThroughIndex ≤ (o.live.perform operation).commitIndex)
    (hcursor : w'.retainedThroughIndex = (o.live.perform operation).snapshotIndex ∨
      w'.retainedThroughIndex ∈ queried)
    (hbytes : w'.retainedBytes =
      UInt64.ofNat ((o.live.perform operation).retained w'.retainedThroughIndex)) :
    Accounted json ⟨w', o.live.perform operation, queried⟩ := by
  obtain ⟨records, hspans⟩ := h.spans
  have haccepts := h.accepts hpermits hok
  refine ⟨hspans.perform hreopen ?_ ?_ hok, h.agrees.perform h.wellFormed haccepts hreopen hok,
    wellFormed_perform h.wellFormed haccepts, hsizes, hge, hle, hcursor, hbytes⟩
  · rintro state rfl
    exact hpermits
  · rintro index term rfl
    exact h.agrees.snapshotIndex ▸ hpermits

theorem Accounted.saveHardState (h : o.Accounted json) {state : HardState}
    (hpermits : o.Permits (.call (.saveHardState state)))
    (hok : o.wal.perform json (.saveHardState state) = some w') :
    Accounted json ⟨w', o.live.perform (.saveHardState state), o.queried⟩ := by
  have hnext := h.of_perform (by simp) hpermits hok o.queried
  obtain ⟨_, happended, rfl⟩ := WAL.appendThen_ok (Outcome.succeeded_eq_some.mp hok)
  obtain ⟨_, _, _, rfl⟩ := WAL.appendRecord_files happended
  exact hnext h.sizes h.cursor_ge h.cursor_le h.cursor h.bytes

theorem Accounted.saveLogEntries (h : o.Accounted json) {entries : List LogEntry}
    (hpermits : o.Permits (.call (.saveLogEntries entries)))
    (hok : o.wal.perform json (.saveLogEntries entries) = some w') :
    Accounted json ⟨w', o.live.perform (.saveLogEntries entries), o.queried⟩ := by
  have hcontiguous : Contiguous (o.live.snapshotIndex.toNat + o.live.log.length) entries :=
    (h.accepts hpermits hok).1
  have hnext := h.of_perform (by simp) hpermits hok o.queried
  obtain ⟨-, _, happended, rfl⟩ := WAL.saveLogEntries_ok (Outcome.succeeded_eq_some.mp hok)
  obtain ⟨_, _, _, rfl⟩ := WAL.appendEntryRecords_files happended
  have hlast := h.cursor_last
  refine hnext (fun entry hentry => ?_) h.cursor_ge h.cursor_le h.cursor ?_
  · rcases List.mem_append.mp hentry with hold | hnew
    · have hindex := h.contiguous.le_last hold
      refine (recordSizes_other entries fun other hother heq => ?_).trans (h.sizes entry hold)
      have habove := hcontiguous.above other hother
      rw [heq] at habove
      omega
    · exact recordSizes_mem hcontiguous hnew
  · refine h.bytes.trans (congrArg UInt64.ofNat (RecoveredState.retained_append ?_).symm)
    intro entry hentry
    have habove := hcontiguous.above entry hentry
    rw [UInt64.lt_iff_toNat_lt]
    omega

theorem Accounted.truncateLog (h : o.Accounted json) {first : UInt64}
    (hpermits : o.Permits (.call (.truncateLog first)))
    (hok : o.wal.perform json (.truncateLog first) = some w') :
    Accounted json ⟨w', o.live.perform (.truncateLog first), o.queried⟩ := by
  have hnext := h.of_perform (by simp) hpermits hok o.queried
  obtain ⟨-, -, hcommit, _, happended, rfl⟩ :=
    WAL.truncateLog_ok (Outcome.succeeded_eq_some.mp hok)
  obtain ⟨_, _, _, rfl⟩ := WAL.appendRecord_files happended
  refine hnext (fun entry hentry => ?_) h.cursor_ge h.cursor_le h.cursor ?_
  · obtain ⟨hold, hbelow⟩ := List.mem_filter.mp hentry
    rw [decide_eq_true_iff] at hbelow
    exact (if_neg fun hcut => UInt64.not_le.mpr hbelow hcut.1).trans (h.sizes entry hold)
  · refine h.bytes.trans (congrArg UInt64.ofNat (RecoveredState.retained_truncate ?_).symm)
    exact UInt64.lt_of_le_of_lt h.cursor_le (h.agrees.commitIndex ▸ hcommit)

theorem Accounted.saveCommitIndex (h : o.Accounted json) {index : UInt64}
    (hpermits : o.Permits (.call (.saveCommitIndex index)))
    (hok : o.wal.perform json (.saveCommitIndex index) = some w') :
    Accounted json ⟨w', o.live.perform (.saveCommitIndex index), o.queried⟩ := by
  have hcursor : o.wal.retainedThroughIndex ≤ index :=
    UInt64.le_trans h.cursor_le (UInt64.le_iff_toNat_le.mpr (h.accepts hpermits hok).1)
  have hnext := h.of_perform (by simp) hpermits hok o.queried
  obtain ⟨-, -, ⟨-, rfl⟩ | ⟨-, _, happended, rfl⟩⟩ :=
    WAL.saveCommitIndex_ok (Outcome.succeeded_eq_some.mp hok)
  · exact hnext h.sizes h.cursor_ge hcursor h.cursor h.bytes
  · obtain ⟨_, _, _, rfl⟩ := WAL.appendRecord_files happended
    exact hnext h.sizes h.cursor_ge hcursor h.cursor h.bytes

theorem Accounted.compact (h : o.Accounted json) {index term : UInt64}
    (hpermits : o.Permits (.call (.compact index term)))
    (hok : o.wal.perform json (.compact index term) = some w') :
    Accounted json ⟨w', o.live.perform (.compact index term), []⟩ := by
  have haccepts := h.accepts hpermits hok
  have hnext := h.of_perform (by simp) hpermits hok []
  obtain ⟨-, -, hinstall⟩ := WAL.compact_ok (Outcome.succeeded_eq_some.mp hok)
  obtain ⟨_, _, _, rfl⟩ := WAL.installSnapshotCheckpoint_files hinstall
  refine hnext (fun entry hentry => ?_) UInt64.le_rfl (UInt64.le_iff_toNat_le.mpr haccepts.2.1)
    (.inl rfl) (congrArg UInt64.ofNat (RecoveredState.retained_below UInt64.le_rfl).symm)
  obtain ⟨hold, habove⟩ := List.mem_filter.mp hentry
  rw [decide_eq_true_iff] at habove
  rw [← h.sizes entry hold]
  exact (if_neg (UInt64.not_le.mpr habove)).trans (if_neg fun hcut => hcut.1 rfl)

theorem Accounted.installSnapshot (h : o.Accounted json) {index term : UInt64} {retain : Bool}
    (hpermits : o.Permits (.call (.installSnapshot index term retain)))
    (hok : o.wal.perform json (.installSnapshot index term retain) = some w') :
    Accounted json ⟨w', o.live.perform (.installSnapshot index term retain), []⟩ := by
  have hnext := h.of_perform (by simp) hpermits hok []
  obtain ⟨-, -, -, -, _, hinstall, rfl⟩ :=
    WAL.installSnapshot_ok (Outcome.succeeded_eq_some.mp hok)
  obtain ⟨_, _, _, rfl⟩ := WAL.installSnapshotCheckpoint_files hinstall
  refine hnext (fun entry hentry => ?_) UInt64.le_rfl ?_ (.inl rfl)
    (congrArg UInt64.ofNat (RecoveredState.retained_below UInt64.le_rfl).symm)
  · cases retain with
    | false => simp [RecoveredState.perform] at hentry
    | true =>
        simp only [RecoveredState.perform, if_true] at hentry
        obtain ⟨hold, habove⟩ := List.mem_filter.mp hentry
        rw [decide_eq_true_iff] at habove
        rw [← h.sizes entry hold]
        exact (if_neg (UInt64.not_le.mpr habove)).trans (if_neg fun hcut => by simp at hcut)
  · simp only [RecoveredState.perform, UInt64.le_iff_toNat_le, UInt64.toNat_max]
    exact le_max_right _ _

theorem Accounted.reopen (h : o.Accounted json) {size : Nat} {recovered : RecoveredState}
    (hok : openWAL json o.wal.directory o.wal.identity size = .ok (w', recovered)) :
    Accounted json ⟨w', recovered, []⟩ := by
  obtain ⟨records, hspans⟩ := h.spans
  have hcommitted : o.wal.commitIndex ≤ o.wal.lastLogIndex := by
    rw [h.agrees.commitIndex, h.agrees.lastLogIndex, UInt64.le_iff_toNat_le]
    exact h.wellFormed.commit_le.trans_eq h.wellFormed.lastIndex.symm
  obtain ⟨hnext, husable, hcommit, _, _, rfl⟩ := hspans.reopen hcommitted hok
  obtain ⟨-, -, hidentity, -⟩ := openWAL_ok hok
  have hwf : ({ live := recovered } : Trace).WellFormed :=
    ⟨husable.contiguous, husable.bound, UInt64.le_iff_toNat_le.mp husable.base_le, hcommit,
      Nat.zero_le _⟩
  exact ⟨⟨records, hnext⟩, ⟨hidentity.symm, rfl, rfl, rfl, rfl⟩, hwf,
    fun entry hentry => recordSizes_mem husable.contiguous hentry, UInt64.le_rfl, husable.base_le,
    .inl rfl, congrArg UInt64.ofNat (RecoveredState.retained_below UInt64.le_rfl).symm⟩

/-! ## Queries -/

theorem retainThrough_eq {w : WAL} {live : RecoveredState}
    (hlog : Contiguous live.snapshotIndex.toNat live.log)
    (hsizes : ∀ entry ∈ live.log, w.entryBytes entry.index = UInt64.ofNat entry.frameBytes)
    (hbase : live.snapshotIndex.toNat ≤ w.retainedThroughIndex.toNat)
    (hbytes : w.retainedBytes = UInt64.ofNat (live.retained w.retainedThroughIndex))
    {throughIndex : UInt64} {count : Nat}
    (hcount : w.retainedThroughIndex.toNat + count = throughIndex.toNat)
    (hlast : throughIndex.toNat ≤ live.snapshotIndex.toNat + live.log.length) :
    WAL.retainThrough count w =
      { w with
        retainedThroughIndex := throughIndex
        retainedBytes := UInt64.ofNat (live.retained throughIndex) } := by
  induction count generalizing w with
  | zero =>
      obtain rfl : w.retainedThroughIndex = throughIndex := UInt64.toNat_inj.mp hcount
      rw [← hbytes]
      rfl
  | succ count ih =>
      have hbound := throughIndex.toNat_lt
      have hsucc : (w.retainedThroughIndex + 1).toNat = w.retainedThroughIndex.toNat + 1 := by
        rw [UInt64.toNat_add]
        exact Nat.mod_eq_of_lt (by simp only [UInt64.reduceToNat]; omega)
      obtain ⟨entry, hentry, hindex, hsum⟩ :=
        RecoveredState.retained_succ hlog hbase (show _ < _ by omega)
      rw [WAL.retainThrough]
      refine (ih ?_ ?_ ?_ ?_).trans rfl
      · exact hsizes
      · simp only [hsucc]
        omega
      · simp only [← hindex, hsizes entry hentry, hbytes]
        rw [hindex, hsum, UInt64.ofNat_add]
      · simp only [hsucc]
        omega

theorem Accounted.retainedLogBytes (h : o.Accounted json) {throughIndex : UInt64}
    (hcommit : throughIndex ≤ o.wal.commitIndex) :
    ∃ cursor, (cursor = o.wal.retainedThroughIndex ∧ throughIndex ≤ cursor ∨
        cursor = throughIndex ∧ o.wal.retainedThroughIndex ≤ cursor) ∧
      o.wal.retainedLogBytes throughIndex =
        ({ o.wal with
            retainedThroughIndex := cursor
            retainedBytes := UInt64.ofNat (o.live.retained cursor) },
          UInt64.ofNat (o.live.retained cursor)) := by
  unfold WAL.retainedLogBytes
  have hbase := UInt64.le_iff_toNat_le.mp h.cursor_ge
  rcases UInt64.le_total throughIndex o.wal.retainedThroughIndex with hbelow | habove
  · refine ⟨_, .inl ⟨rfl, hbelow⟩, ?_⟩
    rw [UInt64.le_iff_toNat_le] at hbelow
    rw [Nat.sub_eq_zero_of_le hbelow, WAL.retainThrough, ← h.bytes]
  · refine ⟨_, .inr ⟨rfl, habove⟩, ?_⟩
    rw [UInt64.le_iff_toNat_le] at habove
    have hlast : throughIndex.toNat ≤ o.live.snapshotIndex.toNat + o.live.log.length := by
      rw [h.agrees.commitIndex, UInt64.le_iff_toNat_le] at hcommit
      exact hcommit.trans h.wellFormed.commit_le
    rw [retainThrough_eq h.contiguous h.sizes hbase h.bytes (Nat.add_sub_cancel' habove) hlast]

theorem Accounted.query (h : o.Accounted json) {throughIndex : UInt64}
    (hcommit : throughIndex ≤ o.wal.commitIndex) :
    Accounted json
      { o with
        wal := (o.wal.retainedLogBytes throughIndex).1
        queried := throughIndex :: o.queried } := by
  obtain ⟨records, hspans⟩ := h.spans
  obtain ⟨cursor, hcursor, heq⟩ := h.retainedLogBytes hcommit
  have hagrees := h.agrees
  rw [heq]
  refine ⟨⟨records, hspans.stored.congr rfl rfl, hspans.newest, hspans.newestCommit, hspans.older,
    hspans.commits, hspans.reaches, hspans.voted, hspans.strings⟩,
    ⟨hagrees.identity, hagrees.lastLogIndex, hagrees.commitIndex, hagrees.snapshotIndex,
      hagrees.snapshotTerm⟩, h.wellFormed, h.sizes, ?_, ?_, ?_, rfl⟩
  · rcases hcursor with ⟨rfl, -⟩ | ⟨rfl, hle⟩
    · exact h.cursor_ge
    · exact UInt64.le_trans h.cursor_ge hle
  · rcases hcursor with ⟨rfl, -⟩ | ⟨rfl, -⟩
    · exact h.cursor_le
    · exact hagrees.commitIndex ▸ hcommit
  · rcases hcursor with ⟨rfl, -⟩ | ⟨rfl, -⟩
    · exact h.cursor.imp_right (List.mem_cons_of_mem _)
    · exact .inr List.mem_cons_self

/-! ## Every run -/

theorem Accounted.perform (h : o.Accounted json) {use : Use} (hpermits : o.Permits use)
    (hok : o.perform json use = some next) : next.Accounted json := by
  cases use with
  | query throughIndex =>
      cases hok
      exact h.query hpermits
  | call operation =>
      by_cases hreopen : ∃ size, operation = .reopen size
      · obtain ⟨size, rfl⟩ := hreopen
        simp only [Owned.perform] at hok
        split at hok
        · simp at hok
        next opened recovered hopen =>
          cases hok
          exact h.reopen hopen
      · rw [perform_call (not_exists.mp hreopen), Option.map_eq_some_iff] at hok
        obtain ⟨w', hperform, rfl⟩ := hok
        cases operation with
        | saveHardState state => exact h.saveHardState hpermits hperform
        | saveLogEntries entries => exact h.saveLogEntries hpermits hperform
        | truncateLog first => exact h.truncateLog hpermits hperform
        | saveCommitIndex index => exact h.saveCommitIndex hpermits hperform
        | compact index term => exact h.compact hpermits hperform
        | installSnapshot index term retain => exact h.installSnapshot hpermits hperform
        | reopen size => exact absurd ⟨size, rfl⟩ hreopen

theorem Accounted.performAll (h : o.Accounted json) {uses : List Use}
    (hpermits : o.Along json Permits uses) (hok : o.performAll json uses = some next) :
    next.Accounted json := by
  induction uses generalizing o with
  | nil =>
      cases hok
      exact h
  | cons use uses ih =>
      obtain ⟨middle, hfirst, hrest⟩ := Option.bind_eq_some_iff.mp hok
      exact ih (h.perform hpermits.1 hfirst) (hpermits.2 middle hfirst) hrest

theorem accounted_initial {identity : Identity} {size : Nat} {w : WAL} {fresh : RecoveredState}
    (hstrings : ValidUTF8 identity.clusterID ∧ ValidUTF8 identity.nodeID)
    (hopen : openWAL json [] identity size = .ok (w, fresh)) :
    Accounted json ⟨w, fresh, []⟩ := by
  have hrep : Represents json True w (Trace.initial identity) _ :=
    represents_initial hstrings hopen
  have hspans := spans_initial hstrings hopen
  obtain ⟨-, -, rfl, first, hfirst, hsecond⟩ := openWAL_created hopen
  obtain ⟨_, _, _, rfl⟩ := WAL.appendRecord_files hfirst
  obtain ⟨_, _, _, rfl⟩ := WAL.appendRecord_files hsecond
  exact ⟨hspans, hrep.agrees, hrep.wellFormed, by simp, UInt64.le_rfl, UInt64.le_rfl, .inl rfl,
    rfl⟩

/--
From a new directory on, through any calls that succeed and any reopens: as long as no query
went beyond the commit index, a query that does not go back answers with the frame bytes of
the entries that are live above the Snapshot, up to its index.
-/
theorem retainedLogBytes_exact {identity : Identity} {size : Nat} {w : WAL}
    {fresh : RecoveredState} {uses : List Use} {throughIndex : UInt64}
    (hstrings : ValidUTF8 identity.clusterID ∧ ValidUTF8 identity.nodeID)
    (hopen : openWAL json [] identity size = .ok (w, fresh))
    (hpermits : Owned.Along json Permits ⟨w, fresh, []⟩ uses)
    (hrun : Owned.performAll json ⟨w, fresh, []⟩ uses = some o)
    (hcommit : throughIndex ≤ o.wal.commitIndex)
    (hforward : ∀ earlier ∈ o.queried, earlier ≤ throughIndex) :
    (o.wal.retainedLogBytes throughIndex).2 = UInt64.ofNat (o.live.retained throughIndex) ∧
      o.live.snapshotIndex = o.wal.snapshotIndex ∧
      ∀ index, o.wal.snapshotIndex < index → index ≤ throughIndex →
        ∃ entry ∈ o.live.log, entry.index = index := by
  have h := (accounted_initial hstrings hopen).performAll hpermits hrun
  refine ⟨?_, h.agrees.snapshotIndex.symm, fun index habove hbelow => ?_⟩
  · obtain ⟨cursor, hcursor, heq⟩ := h.retainedLogBytes hcommit
    rw [heq]
    rcases hcursor with ⟨rfl, hle⟩ | ⟨rfl, -⟩
    · rcases h.cursor with hstart | hqueried
      · rw [hstart] at hle ⊢
        rw [RecoveredState.retained_below hle, RecoveredState.retained_below UInt64.le_rfl]
      · rw [UInt64.le_antisymm hle (hforward _ hqueried)]
    · rfl
  · have hcommitted := h.wellFormed.commit_le
    rw [h.agrees.snapshotIndex, UInt64.lt_iff_toNat_lt] at habove
    rw [h.agrees.commitIndex, UInt64.le_iff_toNat_le] at hcommit
    rw [UInt64.le_iff_toNat_le] at hbelow
    simp only [Trace.last] at hcommitted
    have hlt : index.toNat - o.live.snapshotIndex.toNat - 1 < o.live.log.length := by omega
    have hindex := h.contiguous.index_eq (List.getElem?_eq_getElem hlt)
    exact ⟨_, List.getElem_mem hlt, UInt64.toNat_inj.mp (by omega)⟩

def performPermitted (json : CheckpointJSON) (o : Owned) : List Use → Option Owned
  | [] => some o
  | use :: uses =>
      if o.Permits use then (o.perform json use).bind fun next => next.performPermitted json uses
      else none

theorem performPermitted_some {uses : List Use}
    (h : o.performPermitted json uses = some next) :
    o.Along json Permits uses ∧ o.performAll json uses = some next := by
  induction uses generalizing o with
  | nil => exact ⟨trivial, h⟩
  | cons use uses ih =>
      rw [performPermitted] at h
      split at h
      next hpermits =>
        obtain ⟨middle, hfirst, hrest⟩ := Option.bind_eq_some_iff.mp h
        obtain ⟨halong, hall⟩ := ih hrest
        refine ⟨⟨hpermits, fun other hother => ?_⟩, ?_⟩
        · rw [hfirst, Option.some.injEq] at hother
          exact hother ▸ halong
        · rw [performAll, hfirst]
          exact hall
      · simp at h

def newOwned : Option Owned :=
  (openWAL escapedCheckpoints [] sampleIdentity 1024).toOption.map fun opened =>
    ⟨opened.1, opened.2, []⟩

theorem newOwned_some (h : newOwned = some o) :
    ∃ w fresh, openWAL escapedCheckpoints [] sampleIdentity 1024 = .ok (w, fresh) ∧
      o = ⟨w, fresh, []⟩ := by
  rw [newOwned] at h
  cases hopen : openWAL escapedCheckpoints [] sampleIdentity 1024 with
  | error e => simp [hopen, Except.toOption] at h
  | ok opened =>
      rw [hopen] at h
      cases h
      exact ⟨opened.1, opened.2, rfl, rfl⟩

def answer (run : Owned → Option Owned) (throughIndex : UInt64) :
    Option (List UInt64 × UInt64 × UInt64 × UInt64) :=
  (newOwned.bind run).map fun o =>
    (o.queried, o.wal.commitIndex, (o.wal.retainedLogBytes throughIndex).2,
      UInt64.ofNat (o.live.retained throughIndex))

theorem answer_some {run : Owned → Option Owned} {throughIndex commit found sum : UInt64}
    {queried : List UInt64} (h : answer run throughIndex = some (queried, commit, found, sum)) :
    ∃ w fresh o, openWAL escapedCheckpoints [] sampleIdentity 1024 = .ok (w, fresh) ∧
      run ⟨w, fresh, []⟩ = some o ∧ o.queried = queried ∧ o.wal.commitIndex = commit ∧
      (o.wal.retainedLogBytes throughIndex).2 = found ∧
      UInt64.ofNat (o.live.retained throughIndex) = sum := by
  obtain ⟨o, hrun, hanswer⟩ := Option.map_eq_some_iff.mp h
  obtain ⟨start, hstart, hfinal⟩ := Option.bind_eq_some_iff.mp hrun
  obtain ⟨w, fresh, hopen, rfl⟩ := newOwned_some hstart
  simp only [Prod.mk.injEq] at hanswer
  exact ⟨w, fresh, o, hopen, hfinal, hanswer⟩

def replacedUses : List Use :=
  [.call (.saveLogEntries [sampleEntry 1 1, sampleEntry 2 1, sampleEntry 3 1]),
    .call (.saveCommitIndex 1), .query 1, .call (.truncateLog 3),
    .call (.saveLogEntries [{ sampleEntry 3 2 with value := [7] }]), .call (.saveCommitIndex 2),
    .query 2, .call (.compact 1 1), .call (.reopen 1024), .query 2, .call (.saveCommitIndex 3)]

theorem retainedLogBytes_exact_replaced :
    ∃ w fresh o, openWAL escapedCheckpoints [] sampleIdentity 1024 = .ok (w, fresh) ∧
      Owned.performAll escapedCheckpoints ⟨w, fresh, []⟩ replacedUses = some o ∧
      (o.wal.retainedLogBytes 3).2 = 117 ∧
      (o.wal.retainedLogBytes 3).2 = UInt64.ofNat (o.live.retained 3) := by
  have hanswer : answer (fun o => o.performPermitted escapedCheckpoints replacedUses) 3 =
      some ([2], 3, 117, 117) := by decide +kernel
  obtain ⟨w, fresh, o, hopen, hpermitted, hqueried, hcommit, hfound, -⟩ := answer_some hanswer
  obtain ⟨halong, hrun⟩ := performPermitted_some hpermitted
  have hle : (3 : UInt64) ≤ o.wal.commitIndex := by
    rw [hcommit]
    decide
  have hforward : ∀ earlier ∈ o.queried, earlier ≤ 3 := by
    rw [hqueried]
    simp only [List.mem_singleton, forall_eq]
    decide
  exact ⟨w, fresh, o, hopen, hrun, hfound,
    (retainedLogBytes_exact sampleIdentity_valid hopen halong hrun hle hforward).1⟩

/-- A query beyond the commit index, before the entry it counted is replaced. -/
def countedUncommitted : List Use :=
  [.call (.saveLogEntries [sampleEntry 1 1, sampleEntry 2 1]), .query 2, .call (.truncateLog 2),
    .call (.saveLogEntries [{ sampleEntry 2 2 with value := [7] }]), .call (.saveCommitIndex 2)]

/-- The replaced entry is still the one that counts. -/
theorem retainedLogBytes_stale :
    ∃ w fresh o, openWAL escapedCheckpoints [] sampleIdentity 1024 = .ok (w, fresh) ∧
      Owned.performAll escapedCheckpoints ⟨w, fresh, []⟩ countedUncommitted = some o ∧
      (2 : UInt64) ≤ o.wal.commitIndex ∧ (∀ earlier ∈ o.queried, earlier ≤ 2) ∧
      (o.wal.retainedLogBytes 2).2 = 116 ∧ UInt64.ofNat (o.live.retained 2) = 117 := by
  have hanswer : answer (fun o => o.performAll escapedCheckpoints countedUncommitted) 2 =
      some ([2], 2, 116, 117) := by decide +kernel
  obtain ⟨w, fresh, o, hopen, hrun, hqueried, hcommit, hfound, hsum⟩ := answer_some hanswer
  refine ⟨w, fresh, o, hopen, hrun, ?_, ?_, hfound, hsum⟩
  · rw [hcommit]
    decide
  · rw [hqueried]
    simp only [List.mem_singleton, forall_eq]
    decide

end Owned

end QuorumKV.Wal
