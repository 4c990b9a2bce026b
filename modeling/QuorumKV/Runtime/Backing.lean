import QuorumKV.Runtime.Restart
import QuorumKV.Wal.Usable

/-!
# The disk of the runtime and the WAL behind it

The runtime's `Disk` is the live state of a WAL.  Every call that succeeds on the
WAL succeeds on the disk and leaves both in step, call after call, and a restart
builds the same core from either.  A compaction at or below the Snapshot index is
the exception: the disk ignores it, and the WAL takes its Snapshot index back.
-/

namespace QuorumKV.Wal

open Foundation
open QuorumKV.Raft (NodeID)
open QuorumKV.Runtime (Config Disk Server Write openRaftRuntime startIndex startTerm)

/-- The disk is the live state, in the terms of the core. -/
structure RecoveredState.Shows (live : RecoveredState) (disk : Disk) : Prop where
  hardState : disk.hardState = ⟨live.hardState.term.toNat, live.hardState.votedFor⟩
  log : live.log.map LogEntry.core? = disk.log.map some
  commitIndex : disk.commitIndex = live.commitIndex.toNat
  snapshotIndex : disk.snapshotIndex = live.snapshotIndex.toNat
  snapshotTerm : disk.snapshotTerm = live.snapshotTerm.toNat

/-- The call on the WAL that a write of the runtime makes. -/
inductive Operation.Makes : Operation → Write → Prop where
  | hardState (state : HardState) :
      Makes (.saveHardState state) (.hardState ⟨state.term.toNat, state.votedFor⟩)
  | entries {entries : List LogEntry} {log : List Raft.LogEntry}
      (same : entries.map LogEntry.core? = log.map some) :
      Makes (.saveLogEntries entries) (.entries log)
  | truncation (first : UInt64) : Makes (.truncateLog first) (.truncation first.toNat)
  | commitIndex (index : UInt64) : Makes (.saveCommitIndex index) (.commitIndex index.toNat)
  | snapshot (index term : UInt64) (retain : Bool) :
      Makes (.installSnapshot index term retain) (.snapshot index.toNat term.toNat retain)

theorem mapM_core {entries : List LogEntry} {log : List Raft.LogEntry}
    (h : entries.map LogEntry.core? = log.map some) : entries.mapM LogEntry.core? = some log := by
  induction entries generalizing log with
  | nil =>
      cases log with
      | nil => rfl
      | cons => simp at h
  | cons entry entries ih =>
      cases log with
      | nil => simp at h
      | cons first log =>
          obtain ⟨hfirst, hrest⟩ := List.cons.inj h
          simp [List.mapM_cons, hfirst, ih hrest]

theorem consecutive_core {base : Nat} {entries : List LogEntry} {log : List Raft.LogEntry}
    (hcontiguous : Contiguous base entries) (h : entries.map LogEntry.core? = log.map some) :
    Runtime.consecutive base log = true := by
  induction entries generalizing base log with
  | nil =>
      cases log with
      | nil => rfl
      | cons => simp at h
  | cons entry entries ih =>
      cases log with
      | nil => simp at h
      | cons first log =>
          obtain ⟨hfirst, hrest⟩ := List.cons.inj h
          obtain ⟨type, -, rfl⟩ := Option.map_eq_some_iff.mp hfirst
          simp [Runtime.consecutive, hcontiguous.1, ih hcontiguous.2 hrest]

section Calls

variable {json : CheckpointJSON} {w w' : WAL} {t : Trace} {operation : Operation} {disk : Disk}
  {write : Write}

theorem RecoveredState.Shows.lastIndex (h : t.live.Shows disk) :
    Runtime.Disk.lastIndex disk = t.last := by
  have hlength := congrArg List.length h.log
  rw [List.length_map, List.length_map] at hlength
  rw [Runtime.Disk.lastIndex, Trace.last, h.snapshotIndex, hlength]

theorem RecoveredState.Shows.above (h : t.live.Shows disk) (hwf : t.WellFormed)
    (index : UInt64) :
    (t.live.log.filter fun entry => index < entry.index).map LogEntry.core? =
      (disk.log.drop (index.toNat - disk.snapshotIndex)).map some := by
  rw [hwf.contiguous.filter_above, List.map_drop, List.map_drop, h.log, h.snapshotIndex]

theorem WAL.Agrees.accepts_made (h : w.Agrees t.live) (hwf : t.WellFormed)
    (hmakes : operation.Makes write) (hmeets : t.Meets operation)
    (hok : w.perform json operation = some w') : t.Accepts operation := by
  refine h.accepts hwf ?_ ?_ hok
  · rintro entries rfl
    exact hmeets
  · rintro index term rfl
    cases hmakes

/-- A call that succeeds on the WAL succeeds on the disk. -/
theorem WAL.Agrees.saved (h : w.Agrees t.live) (hwf : t.WellFormed) (hshows : t.live.Shows disk)
    (hmakes : operation.Makes write) (hmeets : t.Meets operation)
    (hok : w.perform json operation = some w') :
    ∃ disk', Runtime.Disk.save disk write = some disk' ∧
      (t.live.perform operation).Shows disk' := by
  have hlast := hshows.lastIndex
  have haccepts := h.accepts_made hwf hmakes hmeets hok
  obtain ⟨hhard, hlog, hcommit, hsnapshot, hterm⟩ := hshows
  cases hmakes with
  | hardState state => exact ⟨_, rfl, rfl, hlog, hcommit, hsnapshot, hterm⟩
  | @entries entries log same =>
      have hsome : log ≠ [] := by
        rintro rfl
        obtain rfl : entries = [] := by simpa using same
        simp [WAL.perform, WAL.saveLogEntries, Outcome.succeeded] at hok
      have hconsecutive := consecutive_core haccepts.1 same
      refine ⟨_, if_neg (by simp [hsome, hlast, hconsecutive]), hhard, ?_, hcommit, hsnapshot,
        hterm⟩
      simp [RecoveredState.perform, hlog, same]
  | truncation first =>
      obtain ⟨hcommitted, hinside, -⟩ := haccepts
      refine ⟨_, if_neg ?_, hhard, ?_, hcommit, hsnapshot, hterm⟩
      · rw [hlast, hcommit]
        omega
      · simp only [RecoveredState.perform]
        rw [hwf.contiguous.filter_below, List.map_take, List.map_take, hlog, hsnapshot]
  | commitIndex index =>
      obtain ⟨hlow, hhigh⟩ := haccepts
      refine ⟨_, if_neg ?_, hhard, hlog, rfl, hsnapshot, hterm⟩
      rw [hlast, hcommit]
      omega
  | snapshot index term retain =>
      obtain ⟨hnewer, hdiscard, hzero⟩ := haccepts
      obtain ⟨-, hpositive, -⟩ := WAL.installSnapshot_ok (Outcome.succeeded_eq_some.mp hok)
      have hindex : index.toNat ≠ 0 := fun h => hzero (UInt64.toNat_inj.mp h)
      have hterm' : term.toNat ≠ 0 := fun h => hpositive (UInt64.toNat_inj.mp h)
      refine ⟨_, if_neg ?_, hhard, ?_, ?_, rfl, rfl⟩
      · rw [hcommit, hsnapshot]
        rintro (hfail | hfail | hfail | ⟨hretain, hfail⟩)
        · exact hindex hfail
        · exact hterm' hfail
        · omega
        · exact absurd (hdiscard hretain) (Nat.not_le.mpr hfail)
      · cases retain with
        | false => rfl
        | true => exact RecoveredState.Shows.above ⟨hhard, hlog, hcommit, hsnapshot, hterm⟩ hwf index
      · simp [RecoveredState.perform, hcommit, UInt64.toNat_max]

/-- A compaction beyond the Snapshot index is the disk's own. -/
theorem WAL.Agrees.compacted (h : w.Agrees t.live) (hwf : t.WellFormed)
    (hshows : t.live.Shows disk) {index term : UInt64} (hbeyond : t.live.snapshotIndex < index)
    (hok : w.perform json (.compact index term) = some w') :
    ∃ disk', Runtime.Disk.compact disk index.toNat term.toNat = some disk' ∧
      (t.live.perform (.compact index term)).Shows disk' := by
  obtain ⟨-, hinside, hzero⟩ := h.accepts hwf (by simp)
    (by rintro _ _ ⟨⟩; exact UInt64.le_of_lt hbeyond) hok
  have hlt := UInt64.lt_iff_toNat_lt.mp hbeyond
  refine ⟨_, (if_neg ?_).trans (if_neg ?_), hshows.hardState, hshows.above hwf index,
    hshows.commitIndex, rfl, rfl⟩
  · rw [hshows.commitIndex]
    omega
  · rw [hshows.snapshotIndex]
    omega

/-- Short of it the disk stays as it is, and the WAL's Snapshot index goes back. -/
theorem WAL.Agrees.compacted_back (h : w.Agrees t.live) (hshows : t.live.Shows disk)
    {index term : UInt64} (hback : index < t.live.snapshotIndex)
    (hok : w.perform json (.compact index term) = some w') :
    Runtime.Disk.compact disk index.toNat term.toNat = some disk ∧
      w'.snapshotIndex < w.snapshotIndex := by
  obtain ⟨hzero, hinside, hinstall⟩ := WAL.compact_ok (Outcome.succeeded_eq_some.mp hok)
  rw [h.commitIndex, UInt64.le_iff_toNat_le] at hinside
  have hlt := UInt64.lt_iff_toNat_lt.mp hback
  have hindex : index.toNat ≠ 0 := fun h => hzero (UInt64.toNat_inj.mp h)
  refine ⟨(if_neg ?_).trans (if_pos ?_), ?_⟩
  · rw [hshows.commitIndex]
    omega
  · rw [hshows.snapshotIndex]
    omega
  · obtain ⟨_, _, _, rfl⟩ := WAL.installSnapshotCheckpoint_files hinstall
    rw [h.snapshotIndex]
    exact hback

theorem WAL.Agrees.savedAll {operations : List Operation} {writes : List Write}
    (h : w.Agrees t.live) (hwf : t.WellFormed) (hshows : t.live.Shows disk)
    (hmakes : List.Forall₂ Operation.Makes operations writes)
    (hmeets : t.Along Trace.Meets operations)
    (hok : w.performAll json operations = some w') :
    ∃ disk', Runtime.Disk.saveAll disk writes = some disk' ∧
      (t.performAll operations).live.Shows disk' := by
  induction hmakes generalizing w t disk with
  | nil => exact ⟨disk, rfl, hshows⟩
  | @cons operation write operations writes hfirst _ ih =>
      simp only [WAL.performAll, Option.bind_eq_some_iff] at hok
      obtain ⟨middle, hcall, hrest⟩ := hok
      obtain ⟨next, hsaved, hnext⟩ := h.saved hwf hshows hfirst hmeets.1 hcall
      have haccepts := h.accepts_made hwf hfirst hmeets.1 hcall
      have hreopen : ∀ size, operation ≠ .reopen size := by
        rintro size rfl
        cases hfirst
      obtain ⟨disk', hall, hshows'⟩ := ih (h.perform hwf haccepts hreopen hcall)
        (hwf.perform haccepts) hnext hmeets.2 hrest
      exact ⟨disk', by simp [Runtime.Disk.saveAll, hsaved, hall], hshows'⟩

/-- The writes a runtime makes on a new WAL leave the disk with what the WAL has live. -/
theorem runtime_disk_shows_wal {identity : Identity} {size : Nat} {recovered : RecoveredState}
    {operations : List Operation} {writes : List Write}
    (hstrings : ValidUTF8 identity.clusterID ∧ ValidUTF8 identity.nodeID)
    (hopen : openWAL json [] identity size = .ok (w, recovered))
    (hmakes : List.Forall₂ Operation.Makes operations writes)
    (hmeets : (Trace.initial identity).Along Trace.Meets operations)
    (hok : w.performAll json operations = some w') :
    ∃ disk, Runtime.Disk.saveAll {} writes = some disk ∧
      ((Trace.initial identity).performAll operations).live.Shows disk := by
  have hrep := @represents_initial json False _ _ _ _ hstrings hopen
  exact hrep.agrees.savedAll hrep.wellFormed ⟨rfl, rfl, rfl, rfl, rfl⟩ hmakes hmeets hok

end Calls

/-- A restart builds the core of the recovered state from the disk that shows it. -/
theorem RecoveredState.Shows.core {recovered : RecoveredState} {config : Config} {id : NodeID}
    {server : Server} {core : Raft.Node} {found : Option Snapshot.State}
    (h : recovered.Shows server.disk)
    (hopen : openRaftRuntime config id server = some (core, found)) :
    recovered.core? id (config.peers id) (startIndex found) (startTerm found) = some core := by
  simp only [openRaftRuntime] at hopen
  split at hopen
  · simp at hopen
  · obtain ⟨rfl, rfl⟩ := Prod.mk.inj (Option.some.inj hopen)
    simp only [RecoveredState.core?, mapM_core h.log, Option.map_some, h.hardState, h.commitIndex]
    rfl

end QuorumKV.Wal
