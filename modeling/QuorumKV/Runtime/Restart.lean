import QuorumKV.Raft.View
import QuorumKV.Runtime.Drain
import QuorumKV.Runtime.Server

/-!
# Restarting a Node

`openRaftRuntime` and the start of `runRaft`.  The newest Snapshot that agrees
with the WAL is restored, the core starts from its position, and the committed
entries above it are applied again.
-/

namespace QuorumKV.Runtime

open Raft Session
open QuorumKV.Foundation (termAt)

/-! ## Snapshots that agree with the WAL -/

/-- The disk stands for a log: it holds what lies above its Snapshot. -/
structure Disk.Backs (disk : Disk) (log : List LogEntry) : Prop where
  numbered : Numbered log
  base_le : disk.snapshotIndex ≤ disk.commitIndex
  commit_le : disk.commitIndex ≤ log.length
  baseTerm : disk.snapshotTerm = termAt LogEntry.term log disk.snapshotIndex
  log_eq : disk.log = log.drop disk.snapshotIndex

section Loading

variable {disk : Disk} {log : List LogEntry} {files : List Snapshot.State}

theorem matchesWAL_sound (h : disk.Backs log) {file : Snapshot.State}
    (hmatches : matchesWAL disk file = true) :
    file.includedIndex ≤ disk.commitIndex ∧
      file.includedTerm = termAt LogEntry.term log file.includedIndex := by
  unfold matchesWAL at hmatches
  split at hmatches
  · simp at hmatches
  next hcommitted =>
    refine ⟨Nat.le_of_not_lt hcommitted, ?_⟩
    split at hmatches
    next hzero => rw [hzero, beq_iff_eq.mp hmatches, Foundation.termAt_zero]
    · split at hmatches
      next hbase => rw [hbase, beq_iff_eq.mp hmatches, h.baseTerm]
      · split at hmatches
        · simp at hmatches
        next hinside =>
          split at hmatches
          · simp at hmatches
          next entry hentry =>
            rw [h.log_eq, List.getElem?_drop] at hentry
            obtain ⟨position, hposition⟩ : ∃ position, file.includedIndex = position + 1 :=
              Nat.exists_eq_succ_of_ne_zero ‹_›
            have hsame : disk.snapshotIndex + (file.includedIndex - (disk.snapshotIndex + 1)) =
                position := by omega
            rw [hsame] at hentry
            rw [hposition, termAt, hentry]
            exact (beq_iff_eq.mp hmatches).symm

theorem matchesWAL_base (h : disk.Backs log) {file : Snapshot.State}
    (hpos : 0 < disk.snapshotIndex) (hindex : file.includedIndex = disk.snapshotIndex)
    (hterm : file.includedTerm = disk.snapshotTerm) : matchesWAL disk file = true := by
  have hbase := h.base_le
  unfold matchesWAL
  rw [if_neg (by omega), if_neg (by omega), if_pos hindex, hterm, beq_self_eq_true]

theorem newest_none (h : newest files = none) : files = [] := by
  cases files with
  | nil => rfl
  | cons file files =>
      simp only [newest] at h
      split at h
      · simp at h
      · split at h <;> simp at h

theorem newest_some {file : Snapshot.State} (h : newest files = some file) :
    file ∈ files ∧ ∀ other ∈ files, other.includedIndex ≤ file.includedIndex := by
  induction files generalizing file with
  | nil => simp [newest] at h
  | cons first files ih =>
      simp only [newest] at h
      split at h
      next hnone =>
        cases h
        rw [newest_none hnone]
        simp
      next best hbest =>
        obtain ⟨hmem, hle⟩ := ih hbest
        split at h
        next hlater =>
          cases h
          refine ⟨by simp, fun other hother => ?_⟩
          rcases List.mem_cons.mp hother with rfl | hother
          · exact le_rfl
          · have := hle other hother
            omega
        next hearlier =>
          cases h
          refine ⟨by simp [hmem], fun other hother => ?_⟩
          rcases List.mem_cons.mp hother with rfl | hother
          · omega
          · exact hle other hother

def startIndex (found : Option Snapshot.State) : Nat := found.elim 0 Snapshot.State.includedIndex

def startTerm (found : Option Snapshot.State) : Nat := found.elim 0 Snapshot.State.includedTerm

structure Disk.Begins (disk : Disk) (log : List LogEntry) (files : List Snapshot.State)
    (found : Option Snapshot.State) : Prop where
  base_le : disk.snapshotIndex ≤ startIndex found
  commit_le : startIndex found ≤ disk.commitIndex
  term_eq : startTerm found = termAt LogEntry.term log (startIndex found)
  stored : ∀ file, found = some file → file ∈ files

theorem loadNewest_begins (h : disk.Backs log) {identity : Snapshot.Identity}
    {found : Option Snapshot.State} (hload : loadNewest identity disk files = some found) :
    disk.Begins log files found := by
  unfold loadNewest at hload
  dsimp only at hload
  split at hload
  · simp at hload
  next hrequired =>
    split at hload
    · simp at hload
    · split at hload
      · simp at hload
      next hcompatible =>
        cases hload
        cases hfound : newest (files.filter (matchesWAL disk)) with
        | none =>
            have hzero : disk.snapshotIndex = 0 := by
              by_contra hne
              exact hcompatible ⟨Nat.pos_of_ne_zero hne, hfound⟩
            exact ⟨hzero.le, Nat.zero_le _, (Foundation.termAt_zero log).symm, by simp⟩
        | some file =>
            obtain ⟨hmem, hnewest⟩ := newest_some hfound
            rw [List.mem_filter] at hmem
            obtain ⟨hcommitted, hterm⟩ := matchesWAL_sound h hmem.2
            refine ⟨?_, hcommitted, hterm, by rintro _ ⟨⟩; exact hmem.1⟩
            rcases Nat.eq_zero_or_pos disk.snapshotIndex with hzero | hpos
            · omega
            · have hany : files.any (fun file => file.includedIndex == disk.snapshotIndex &&
                  file.includedTerm == disk.snapshotTerm) = true := by
                by_contra hnone
                exact hrequired ⟨hpos, Bool.eq_false_iff.mpr hnone⟩
              obtain ⟨base, hbase, hsame⟩ := List.any_eq_true.mp hany
              rw [Bool.and_eq_true, beq_iff_eq, beq_iff_eq] at hsame
              have hle := hnewest base (List.mem_filter.mpr
                ⟨hbase, matchesWAL_base h hpos hsame.1 hsame.2⟩)
              exact hsame.1 ▸ hle

end Loading

/-! ## The core of a restart -/

section Opening

variable {config : Config} {id : NodeID} {server : Server} {disk : Disk} {log : List LogEntry}
  {files : List Snapshot.State} {core : Node} {found : Option Snapshot.State}

structure Opened (config : Config) (id : NodeID) (disk : Disk) (log : List LogEntry)
    (found : Option Snapshot.State) (core : Node) : Prop where
  core_eq : core =
    { id := id
      peers := (config.peers id).insertionSort (· ≤ ·)
      term := disk.hardState.term
      votedFor := disk.hardState.votedFor
      durableTerm := disk.hardState.term
      durableVotedFor := disk.hardState.votedFor
      commitIndex := disk.commitIndex
      durableCommitIndex := disk.commitIndex
      lastApplied := startIndex found
      logBaseIndex := startIndex found
      logBaseTerm := startTerm found
      log := log.drop (startIndex found)
      lastLogIndex := log.length
      lastLogTerm := Foundation.lastTerm LogEntry.term log
      durableLogIndex := log.length }
  holds : core.Holds log

theorem openRaftRuntime_opened (h : server.disk.Backs log)
    (hopen : openRaftRuntime config id server = some (core, found)) :
    server.disk.Begins log server.files found ∧ Opened config id server.disk log found core := by
  unfold openRaftRuntime at hopen
  split at hopen
  · simp at hopen
  next other hload =>
    simp only [Option.some.injEq, Prod.mk.injEq] at hopen
    obtain ⟨hcore, rfl⟩ := hopen
    have hbegins := loadNewest_begins h hload
    refine ⟨hbegins, ?_⟩
    have hlog : server.disk.log.dropWhile (fun entry => entry.index ≤ startIndex other) =
        log.drop (startIndex other) := by
      rw [h.log_eq, h.numbered.dropWhile_drop, max_eq_right hbegins.base_le]
    obtain ⟨recovered, hrecovered⟩ : ∃ recovered : RecoveredState, recovered =
        { hardState := server.disk.hardState
          log := log.drop (startIndex other)
          commitIndex := server.disk.commitIndex
          snapshotIndex := startIndex other
          snapshotTerm := startTerm other } := ⟨_, rfl⟩
    have hsuffix : recovered.log = log.drop recovered.snapshotIndex := by rw [hrecovered]
    have hnode := Node.newNodeFromRecoveredState_trimmed id (config.peers id)
      (h.numbered.first_of_drop hsuffix)
    have hholds := Node.holds_newNodeFromRecoveredState id (config.peers id) h.numbered
      (by rw [hrecovered]; exact hbegins.commit_le.trans h.commit_le) hsuffix
      (by rw [hrecovered]; exact hbegins.term_eq)
    have hcore' : newNodeFromRecoveredState id (config.peers id) recovered = core := by
      rw [← hcore, hrecovered, ← hlog]
      rfl
    rw [hcore'] at hnode hholds
    have hlastIndex := hholds.lastIndex
    have hlastTerm := hholds.lastTerm
    refine ⟨?_, hholds⟩
    rw [hnode] at hlastIndex hlastTerm ⊢
    dsimp only at hlastIndex hlastTerm
    rw [hlastIndex, hlastTerm, hrecovered]

theorem applyLoop_entries {n : Node} (count : Nat) (h : n.Holds log) (hrole : n.role ≠ .leader)
    (hbase : n.logBaseIndex ≤ n.lastApplied) (hle : n.lastApplied + count ≤ log.length) :
    n.applyLoop count = ({ n with lastApplied := n.lastApplied + count },
      ((log.drop n.lastApplied).take count).map .applyEntry) := by
  induction count generalizing n with
  | zero => simp [Node.applyLoop]
  | succ count ih =>
      have hlt : n.lastApplied < log.length := by omega
      have hentry : n.log[n.lastApplied + 1 - n.logBaseIndex - 1]? = some log[n.lastApplied] := by
        rw [h.entry_eq (Nat.lt_succ_of_le hbase), Nat.succ_sub_one, List.getElem?_eq_getElem hlt]
      obtain ⟨next, hnext⟩ : ∃ next : Node, next = { n with lastApplied := n.lastApplied + 1 } :=
        ⟨_, rfl⟩
      have hholds : next.Holds log := by
        rw [hnext]
        exact h.of_parts rfl
      have happlied : next.lastApplied = n.lastApplied + 1 := by rw [hnext]
      have hloop := ih hholds (by rw [hnext]; exact hrole)
        (by rw [hnext]; exact hbase.trans (Nat.le_succ _)) (by omega)
      rw [happlied] at hloop
      simp only [Node.applyLoop, hentry, hrole, false_and, if_false, List.nil_append, decide_false,
        Bool.or_false]
      rw [← hnext, hloop, hnext, List.drop_eq_getElem_cons hlt, List.take_succ_cons, List.map_cons]
      simp only [Prod.mk.injEq, and_true]
      rw [Nat.add_assoc, Nat.add_comm 1 count]

def recoveredFrom (log : List LogEntry) (index commit : Nat) : List LogEntry :=
  (log.drop index).take (commit - index)

theorem step_recoverCommitted (h : disk.Backs log) (hbegins : disk.Begins log files found)
    (hopened : Opened config id disk log found core) :
    Runtime.step core disk .recoverCommitted = .completed
      { core := { core with lastApplied := disk.commitIndex }
        disk := disk
        emitted :=
          (recoveredFrom log (startIndex found) disk.commitIndex).map .applyEntry } := by
  have hcore := hopened.core_eq
  have happlied : core.lastApplied = startIndex found := by rw [hcore]
  have hbase : core.logBaseIndex = startIndex found := by rw [hcore]
  have hcommit : core.durableCommitIndex = disk.commitIndex := by rw [hcore]
  have hrole : core.role ≠ .leader := by rw [hcore]; simp
  have hreads : core.pendingReads = [] := by rw [hcore]
  have hquiet : ∀ entries : List LogEntry,
      Quiet (entries.map Action.applyEntry) := by
    intro entries action hmem
    obtain ⟨entry, -, rfl⟩ := List.mem_map.mp hmem
    rfl
  have hstep : core.step .recoverCommitted = ({ core with lastApplied := disk.commitIndex },
      (recoveredFrom log (startIndex found) disk.commitIndex).map .applyEntry) := by
    simp only [Node.step, Node.applyThrough, hcommit, happlied, recoveredFrom]
    split
    next hdone =>
      have hsame : disk.commitIndex = startIndex found := le_antisymm hdone hbegins.commit_le
      rw [hsame, Nat.sub_self, List.take_zero]
      simp [Node.completeReads, hreads, ← happlied, hcommit, hsame]
    next hlater =>
      have hcount : startIndex found + (disk.commitIndex - startIndex found) = disk.commitIndex :=
        by omega
      have hcommitted := h.commit_le
      rw [applyLoop_entries _ hopened.holds hrole (by omega) (by omega), happlied, hcount]
      simp [Node.completeReads, hreads, hcommit]
  rw [Runtime.step, hstep, drain_all_quiet _ _ (hquiet _)]
  rfl

theorem recoverEntries_map (sessions : SessionMachine) (entries : List LogEntry) :
    recoverEntries sessions (entries.map .applyEntry) = some (sessions.applyAll entries) := by
  induction entries generalizing sessions with
  | nil => rfl
  | cons entry entries ih => exact ih _

theorem recoveredEntries_map (id : NodeID) (entries : List LogEntry) :
    recoveredEntries id (entries.map .applyEntry) = entries.map (.applied id) := by
  induction entries with
  | nil => rfl
  | cons entry entries ih => exact congrArg (.applied id entry :: ·) ih

/-- A start with a disk that backs a log: the Snapshot it begins from and the entries it applies. -/
theorem start_backed (h : server.disk.Backs log) {turn : Turn}
    (hstart : server.start config id = some turn) :
    ∃ core found sessions, openRaftRuntime config id server = some (core, found) ∧
      server.disk.Begins log server.files found ∧ Opened config id server.disk log found core ∧
      (newSessionMachine config.activeSessionLimit).restore found = .ok sessions ∧
      turn =
        { server :=
            { server with
              process := some
                { core := { core with lastApplied := server.disk.commitIndex }
                  sessions := sessions.applyAll
                    (recoveredFrom log (startIndex found) server.disk.commitIndex) } }
          observed := (recoveredFrom log (startIndex found) server.disk.commitIndex).map
            (.applied id) } := by
  obtain ⟨core, found, restored, sessions, progress, hopen, hrestore, hstep, hrecover, rfl⟩ :=
    Server.start_ok hstart
  obtain ⟨hbegins, hopened⟩ := openRaftRuntime_opened h hopen
  obtain rfl := Outcome.completed.inj
    ((step_recoverCommitted h hbegins hopened).symm.trans hstep)
  obtain rfl := Option.some.inj ((recoverEntries_map _ _).symm.trans hrecover)
  exact ⟨core, found, restored, hopen, hbegins, hopened, hrestore, by rw [recoveredEntries_map]⟩

end Opening

/-! ## The state of a restart -/

section Machines

variable (config : Config) (log : List LogEntry)

theorem Config.machine_limit : (config.machine log).limit = config.activeSessionLimit :=
  SessionMachine.applyAll_invariant (P := fun m => m.limit = config.activeSessionLimit)
    (fun m entry h => (SessionMachine.apply_limit m entry).trans h) log rfl

theorem Config.machine_active :
    (config.machine log).active = (config.machine log).activeSessions.card :=
  SessionMachine.applyAll_invariant (P := fun m => m.active = m.activeSessions.card)
    (fun _ entry h => SessionMachine.active_apply entry h) log rfl

theorem Config.machine_active_le (hlimit : 0 ≤ config.activeSessionLimit) :
    (config.machine log).active ≤ (config.machine log).limit := by
  have hle : (config.machine log).active ≤ max (config.machine log).limit 0 :=
    SessionMachine.applyAll_invariant (P := fun m => m.active ≤ max m.limit 0)
      (fun _ entry h => SessionMachine.active_le_apply entry h) log (le_max_right _ _)
  rwa [max_eq_left (by rw [config.machine_limit]; exact hlimit)] at hle

theorem Config.restore_machine (hlimit : 0 ≤ config.activeSessionLimit)
    (identity : Snapshot.Identity) (index term : Nat) :
    (newSessionMachine config.activeSessionLimit).restore
      (some ((config.machine log).snapshot identity index term)) = .ok (config.machine log) := by
  rw [SessionMachine.restore_snapshot _ _ _ (config.machine_limit log).symm
    (config.machine_active log), if_neg (Int.not_lt.mpr (config.machine_active_le log hlimit))]

end Machines

/--
What a data directory may hold: files of this Node, and among those that agree
with the committed log only images of it.
-/
structure Directory (config : Config) (id : NodeID) (disk : Disk) (log : List LogEntry)
    (files : List Snapshot.State) : Prop where
  identity : ∀ file ∈ files, file.identity = snapshotIdentity config id
  image : ∀ file ∈ files, file.includedIndex ≤ disk.commitIndex →
    file.includedTerm = termAt LogEntry.term log file.includedIndex →
    file = (config.machine (log.take file.includedIndex)).snapshot file.identity
      file.includedIndex file.includedTerm
  base : 0 < disk.snapshotIndex → ∃ file ∈ files,
    file.includedIndex = disk.snapshotIndex ∧ file.includedTerm = disk.snapshotTerm

section Restarting

variable {config : Config} {id : NodeID} {disk : Disk} {log : List LogEntry}
  {files : List Snapshot.State} {found : Option Snapshot.State}

theorem Directory.loads (h : Directory config id disk log files) (hbacks : disk.Backs log) :
    ∃ found, loadNewest (snapshotIdentity config id) disk files = some found := by
  have hrequired : ¬ (disk.snapshotIndex > 0 ∧ (files.any fun file =>
      file.includedIndex == disk.snapshotIndex && file.includedTerm == disk.snapshotTerm) =
        false) := by
    rintro ⟨hpos, hnone⟩
    obtain ⟨file, hmem, hindex, hterm⟩ := h.base hpos
    have hany := List.any_eq_false.mp hnone file hmem
    simp [hindex, hterm] at hany
  have hidentity : ¬ (files.any fun file => file.identity ≠ snapshotIdentity config id) = true := by
    rw [List.any_eq_true]
    rintro ⟨file, hmem, hother⟩
    simp [h.identity file hmem] at hother
  have hcompatible : ¬ (disk.snapshotIndex > 0 ∧
      newest (files.filter (matchesWAL disk)) = none) := by
    rintro ⟨hpos, hnone⟩
    obtain ⟨file, hmem, hindex, hterm⟩ := h.base hpos
    have hkept := List.mem_filter.mpr ⟨hmem, matchesWAL_base hbacks hpos hindex hterm⟩
    simp [newest_none hnone] at hkept
  exact ⟨_, by rw [loadNewest, if_neg hrequired, if_neg hidentity, if_neg hcompatible]⟩

theorem Directory.restores (h : Directory config id disk log files)
    (hlimit : 0 ≤ config.activeSessionLimit) (hbegins : disk.Begins log files found) :
    (newSessionMachine config.activeSessionLimit).restore found =
      .ok (config.machine (log.take (startIndex found))) := by
  cases found with
  | none => rfl
  | some file =>
      rw [h.image file (hbegins.stored file rfl) hbegins.commit_le hbegins.term_eq]
      exact config.restore_machine _ hlimit _ _ _

theorem machine_recovered {index commit : Nat} (hle : index ≤ commit) :
    (config.machine (log.take index)).applyAll (recoveredFrom log index commit) =
      config.machine (log.take commit) := by
  obtain ⟨count, rfl⟩ := Nat.exists_eq_add_of_le hle
  rw [recoveredFrom, Nat.add_sub_cancel_left, Config.machine, Config.machine, List.take_add,
    SessionMachine.applyAll_append]

theorem recoveredFrom_index (h : Numbered log) {index commit : Nat} (hle : commit ≤ log.length) :
    (recoveredFrom log index commit).map LogEntry.index =
      List.range' (index + 1) (commit - index) := by
  apply List.ext_getElem
  · simp [recoveredFrom]
    omega
  · intro offset hleft hright
    have hinside : index + offset < log.length := by
      simp at hright
      omega
    have hentry := h (index + offset) log[index + offset] (List.getElem?_eq_getElem hinside)
    simp only [recoveredFrom, List.getElem_map, List.getElem_take, List.getElem_drop, hentry,
      List.getElem_range']
    omega

/--
A restart rebuilds the committed state: the newest Snapshot that agrees with the
WAL, then each committed entry above it once and in order.
-/
theorem restart_rebuilds (config : Config) (hlimit : 0 ≤ config.activeSessionLimit) (id : NodeID)
    (server : Server) (log : List LogEntry) (hbacks : server.disk.Backs log)
    (hdirectory : Directory config id server.disk log server.files) :
    ∃ core found progress,
      openRaftRuntime config id server = some (core, found) ∧
      (newSessionMachine config.activeSessionLimit).restore found =
        .ok (config.machine (log.take (startIndex found))) ∧
      Runtime.step core server.disk .recoverCommitted = .completed progress ∧
      recoverEntries (config.machine (log.take (startIndex found))) progress.emitted =
        some (config.machine (log.take server.disk.commitIndex)) ∧
      progress.emitted =
        (recoveredFrom log (startIndex found) server.disk.commitIndex).map .applyEntry ∧
      (recoveredFrom log (startIndex found) server.disk.commitIndex).map LogEntry.index =
        List.range' (startIndex found + 1) (server.disk.commitIndex - startIndex found) ∧
      server.disk.snapshotIndex ≤ startIndex found ∧
      startIndex found ≤ server.disk.commitIndex ∧
      progress.disk = server.disk ∧ progress.core.Holds log ∧
      progress.core.logBaseIndex = startIndex found ∧
      progress.core.lastLogIndex = server.disk.lastIndex ∧
      progress.core.commitIndex = server.disk.commitIndex ∧
      progress.core.lastApplied = server.disk.commitIndex := by
  obtain ⟨found, hload⟩ := hdirectory.loads hbacks
  obtain ⟨core, hopen⟩ : ∃ core, openRaftRuntime config id server = some (core, found) :=
    ⟨_, by rw [openRaftRuntime, hload]⟩
  obtain ⟨hbegins, hopened⟩ := openRaftRuntime_opened hbacks hopen
  have hstep := step_recoverCommitted hbacks hbegins hopened
  have hholds := hopened.holds
  refine ⟨core, found, _, hopen, hdirectory.restores hlimit hbegins, hstep, ?_, rfl,
    recoveredFrom_index hbacks.numbered hbacks.commit_le, hbegins.base_le, hbegins.commit_le, rfl,
    hholds.of_parts rfl, ?_, ?_, ?_, rfl⟩
  · rw [recoverEntries_map, machine_recovered hbegins.commit_le]
  · rw [hopened.core_eq]
  · have hinside := hbacks.base_le.trans hbacks.commit_le
    rw [Disk.lastIndex, hbacks.log_eq, List.length_drop, hholds.lastIndex]
    omega
  · rw [hopened.core_eq]

end Restarting

/-! ## A Node that restarts above a Snapshot -/

def threeNodes : Config where
  clusterID := [1]
  members := [[65], [66], [67]]
  nodup := by decide
  named := by decide
  activeSessionLimit := 10
  fileLength := fun _ => 64

def twoEntries : List LogEntry :=
  [{ index := 1, term := 1, type := .openSession, sessionID := SessionID.zero },
    { index := 2, term := 1, type := .closeSession, sessionID := SessionID.zero }]

def compactedServer : Server where
  disk :=
    { hardState := ⟨1, []⟩
      log := twoEntries.drop 1
      commitIndex := 2
      snapshotIndex := 1
      snapshotTerm := 1 }
  files := [(threeNodes.machine (twoEntries.take 1)).snapshot (snapshotIdentity threeNodes [65]) 1 1]

theorem compactedServer_rebuilds :
    ∃ core found progress, openRaftRuntime threeNodes [65] compactedServer = some (core, found) ∧
      Runtime.step core compactedServer.disk .recoverCommitted = .completed progress ∧
      recoverEntries (threeNodes.machine (twoEntries.take (startIndex found))) progress.emitted =
        some (threeNodes.machine (twoEntries.take 2)) ∧
      progress.core.lastApplied = 2 := by
  have hnumbered : Numbered twoEntries := by
    rintro (_ | _ | i) e he
    · cases he
      rfl
    · cases he
      rfl
    · simp [twoEntries] at he
  obtain ⟨core, found, progress, hopen, -, hstep, hentries, -, -, -, -, -, -, -, -, -, happlied⟩ :=
    restart_rebuilds threeNodes (by decide) [65] compactedServer twoEntries
      ⟨hnumbered, by decide, by decide, rfl, rfl⟩
      ⟨by simp [compactedServer, SessionMachine.snapshot],
        by simp [compactedServer, SessionMachine.snapshot],
        fun _ => ⟨_, List.mem_singleton.mpr rfl, rfl, rfl⟩⟩
  exact ⟨core, found, progress, hopen, hstep, hentries, happlied⟩

end QuorumKV.Runtime
