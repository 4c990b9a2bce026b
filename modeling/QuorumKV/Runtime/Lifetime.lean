import QuorumKV.Runtime.Events

/-!
# The life of a runtime

A runtime opened on a well-formed WAL and stepped with any events.  As long as no
step returns an error, the core and the WAL stay in lock-step and the positions of
the core stay in order.  The positions are natural numbers here; the last part shows
what becomes of the sums of the source when the last position is the last `uint64`.
-/

namespace QuorumKV.Runtime

open Raft Foundation

/-! ## Opening -/

/-- The log counts on from the Snapshot, and the commit index lies in it. -/
structure Disk.WellFormed (disk : Disk) : Prop where
  numbered : ∀ offset entry, disk.log[offset]? = some entry →
    entry.index = disk.snapshotIndex + offset + 1
  base_le : disk.snapshotIndex ≤ disk.commitIndex
  commit_le : disk.commitIndex ≤ Disk.lastIndex disk

theorem Disk.WellFormed.backs {disk : Disk} (h : disk.WellFormed)
    (hstart : disk.snapshotIndex = 0 → disk.snapshotTerm = 0) : ∃ log, disk.Backs log := by
  obtain ⟨n, hn⟩ : ∃ n : Node, n =
      { id := []
        peers := []
        log := disk.log
        logBaseIndex := disk.snapshotIndex
        logBaseTerm := disk.snapshotTerm
        lastLogIndex := Disk.lastIndex disk } := ⟨_, rfl⟩
  have hcontiguous : ({ n with lastLogTerm := n.termAt n.lastLogIndex } : Node).Contiguous := by
    rw [hn]
    exact ⟨h.numbered, rfl, rfl, hstart⟩
  obtain ⟨log, hnumbered, hholds⟩ := hcontiguous.holds
  rw [hn] at hholds
  refine ⟨log, hnumbered, h.base_le, ?_, hholds.baseTerm, hholds.log_eq⟩
  exact h.commit_le.trans hholds.lastIndex.le

section Opening

variable {config : Config} {id : NodeID} {server : Server} {core : Node}
  {found : Option Snapshot.State}

theorem matchesWAL_start {disk : Disk} (h : disk.snapshotIndex = 0) (term : Nat) :
    matchesWAL { disk with snapshotTerm := term } = matchesWAL disk := by
  funext file
  unfold matchesWAL
  dsimp only
  split
  · rfl
  split
  · rfl
  next hpos => rw [h, if_neg hpos, if_neg hpos]

theorem openRaftRuntime_start (h : server.disk.snapshotIndex = 0) (term : Nat) :
    openRaftRuntime config id
        { server with disk := { server.disk with snapshotTerm := term } } =
      openRaftRuntime config id server := by
  have hload : loadNewest (snapshotIdentity config id)
      { server.disk with snapshotTerm := term } server.files =
        loadNewest (snapshotIdentity config id) server.disk server.files := by
    have hzero : ¬ server.disk.snapshotIndex > 0 := by omega
    unfold loadNewest
    rw [matchesWAL_start h]
    simp only [hzero, false_and, if_false]
  simp only [openRaftRuntime, hload]

theorem openRaftRuntime_backed {disk : Disk} {log : List LogEntry} (h : disk.Backs log)
    (hopen : openRaftRuntime config id { server with disk := disk } = some (core, found)) :
    InStep core disk := by
  obtain ⟨hbegins, hopened⟩ := openRaftRuntime_opened h hopen
  have hholds := hopened.holds
  have hbase : disk.snapshotIndex ≤ startIndex found := hbegins.base_le
  have hcommit : startIndex found ≤ disk.commitIndex := hbegins.commit_le
  have hlength := h.commit_le
  have hcontiguous := hholds.contiguous h.numbered
  rw [hopened.core_eq] at hcontiguous ⊢
  exact
    { ordered := ⟨hcontiguous, le_rfl, hcommit, hlength⟩
      mirrors := by
        refine ⟨hbase, ?_, ?_⟩
        · simp only [h.log_eq, List.drop_drop]
          congr 1
          omega
        · simp only [Disk.lastIndex, h.log_eq, List.length_drop]
          omega
      commit_eq := rfl
      hardState := rfl
      durableTerm := rfl
      durableVote := rfl
      durableCommit := rfl
      durableLog := rfl
      noHardState := rfl
      noLog := rfl
      noCommit := rfl
      noSnapshot := rfl }

theorem openRaftRuntime_inStep (h : server.disk.WellFormed)
    (hopen : openRaftRuntime config id server = some (core, found)) :
    InStep core server.disk := by
  by_cases hstart : server.disk.snapshotIndex = 0
  · have hwell : Disk.WellFormed { server.disk with snapshotTerm := 0 } :=
      ⟨h.numbered, h.base_le, h.commit_le⟩
    obtain ⟨log, hbacks⟩ := hwell.backs fun _ => rfl
    rw [← openRaftRuntime_start hstart 0] at hopen
    have hbacked := openRaftRuntime_backed hbacks hopen
    exact
      { hbacked with
        mirrors := ⟨hbacked.mirrors.base_le, hbacked.mirrors.log_eq, hbacked.mirrors.last_eq⟩ }
  · obtain ⟨log, hbacks⟩ := h.backs fun hzero => absurd hzero hstart
    exact openRaftRuntime_backed hbacks hopen

end Opening

/-! ## Running -/

def run (core : Node) (disk : Disk) : List Event → Option (Node × Disk)
  | [] => some (core, disk)
  | event :: events =>
      match step core disk event with
      | .completed progress => run progress.core progress.disk events
      | _ => none

section Running

variable {n : Node} {d : Disk}

theorem InStep.sound (h : InStep n d) (event : Event) :
    Runtime.step n d event ≠ .exhausted ∧ (∀ instant ∈ instants n d event, Good instant) ∧
      ∀ progress, Runtime.step n d event = .completed progress →
        InStep progress.core progress.disk ∧
          progress.emitted = WorkQueue.emitted (instants n d event) := by
  obtain ⟨hgood, hends, hpost⟩ := (h.step event).sound
  have hfollows := drain_follows 3 { core := (n.step event).1, disk := d } (n.step event).2
  change Follows _ (queue.walk 3 (n.step event).1 d (n.step event).2)
    (Runtime.step n d event) at hfollows
  refine ⟨fun hexhausted => ?_, hgood, fun progress hcompleted => ?_⟩
  · rw [hexhausted] at hfollows
    exact hends hfollows
  · rw [hcompleted] at hfollows
    exact ⟨hpost _ _ hfollows.1, hfollows.2⟩

theorem InStep.run {events : List Event} {m : Node} {disk : Disk} (h : InStep n d)
    (hrun : Runtime.run n d events = some (m, disk)) : InStep m disk := by
  induction events generalizing n d with
  | nil =>
      cases hrun
      exact h
  | cons event events ih =>
      unfold Runtime.run at hrun
      split at hrun
      next progress hcompleted => exact ih ((h.sound event).2.2 progress hcompleted).1 hrun
      · cases hrun

end Running

structure LockStep (core : Node) (disk : Disk) : Prop where
  hardState : disk.hardState = ⟨core.term, core.votedFor⟩
  commit : disk.commitIndex = core.commitIndex ∧ core.durableCommitIndex = core.commitIndex
  last : Disk.lastIndex disk = core.lastLogIndex ∧ core.durableLogIndex = core.lastLogIndex
  log : ∀ index, core.logBaseIndex < index → Disk.entryAt disk index = core.entryAt index
  noHardState : core.pendingHardState = fun _ => none
  noLog : core.pendingLog = fun _ => none
  noCommit : core.pendingCommit = fun _ => none
  noSnapshot : core.pendingSnapshot = fun _ => none

theorem InStep.lockStep {n : Node} {d : Disk} (h : InStep n d) : LockStep n d :=
  { hardState := h.hardState
    commit := ⟨h.commit_eq, h.durableCommit⟩
    last := ⟨h.mirrors.last_eq, h.durableLog⟩
    log := fun _ hlt => h.mirrors.entryAt_eq hlt
    noHardState := h.noHardState
    noLog := h.noLog
    noCommit := h.noCommit
    noSnapshot := h.noSnapshot }

def sampleEvents : List Event :=
  [.recoverCommitted,
    .voteRequest { sender := [66], term := 2, lastLogIndex := 2, lastLogTerm := 1 },
    .appendEntries
      { sender := [66]
        term := 3
        requestID := 1
        prevLogIndex := 2
        prevLogTerm := 1
        entries := [{ index := 3, term := 3, type := .noOp }]
        leaderCommit := 3
        readID := 0 }]

theorem compactedServer_wellFormed : compactedServer.disk.WellFormed := by
  refine ⟨?_, by decide, by decide⟩
  intro offset entry hentry
  rcases offset with _ | offset
  · obtain rfl := Option.some.inj hentry
    rfl
  · simp [compactedServer, twoEntries] at hentry

theorem sampleEvents_run : ∃ core found n d,
    openRaftRuntime threeNodes [65] compactedServer = some (core, found) ∧
      run core compactedServer.disk sampleEvents = some (n, d) := by
  have hruns : ((openRaftRuntime threeNodes [65] compactedServer).bind fun opened =>
      run opened.1 compactedServer.disk sampleEvents).isSome = true := by decide +kernel
  obtain ⟨reached, hreached⟩ := Option.isSome_iff_exists.mp hruns
  obtain ⟨opened, hopened, hrun⟩ := Option.bind_eq_some_iff.mp hreached
  exact ⟨opened.1, opened.2, reached.1, reached.2, hopened, hrun⟩

section Lifetime

variable {config : Config} {id : NodeID} {server : Server} {core n : Node}
  {found : Option Snapshot.State} {events : List Event} {d : Disk}

/--
After any events, the core and the WAL are in lock-step.  The next step ends; if it
returns normally they are in lock-step again, and each action it returns was handed out
when the WAL had what the action speaks for.
-/
theorem runtime_in_lock_step (hwell : server.disk.WellFormed)
    (hopen : openRaftRuntime config id server = some (core, found))
    (hrun : run core server.disk events = some (n, d)) :
    LockStep n d ∧ ∀ event, step n d event ≠ .exhausted ∧
      ∀ progress, step n d event = .completed progress →
        LockStep progress.core progress.disk ∧
        progress.emitted = WorkQueue.emitted (instants n d event) ∧
        ∀ core' disk' action, .emitted core' disk' action ∈ instants n d event →
          Backed core' disk' action := by
  have hstanding := (openRaftRuntime_inStep hwell hopen).run hrun
  refine ⟨hstanding.lockStep, fun event => ?_⟩
  obtain ⟨hends, hgood, hcompleted⟩ := hstanding.sound event
  refine ⟨hends, fun progress hprogress => ?_⟩
  obtain ⟨hnext, hemitted⟩ := hcompleted progress hprogress
  exact ⟨hnext.lockStep, hemitted, fun core' disk' action hmem => hgood _ hmem⟩

theorem runtime_in_lock_step_sample : ∃ core found n d,
    openRaftRuntime threeNodes [65] compactedServer = some (core, found) ∧
      run core compactedServer.disk sampleEvents = some (n, d) ∧ LockStep n d := by
  obtain ⟨core, found, n, d, hopen, hrun⟩ := sampleEvents_run
  exact ⟨core, found, n, d, hopen, hrun,
    (runtime_in_lock_step compactedServer_wellFormed hopen hrun).1⟩

/--
After any events, the positions of the core are in order, and every expression that
indexes the log is in range: on the core the next event is stepped on, and on the cores
its completions are stepped on.
-/
theorem runtime_in_range (hwell : server.disk.WellFormed)
    (hopen : openRaftRuntime config id server = some (core, found))
    (hrun : run core server.disk events = some (n, d)) :
    (∀ offset entry, n.log[offset]? = some entry → entry.index = n.logBaseIndex + offset + 1) ∧
    n.lastLogIndex = n.logBaseIndex + n.log.length ∧ n.lastLogTerm = n.termAt n.lastLogIndex ∧
    n.logBaseIndex ≤ n.lastApplied ∧ n.lastApplied ≤ n.commitIndex ∧
    n.commitIndex ≤ n.lastLogIndex ∧ n.InRange ∧
    ∀ event core' completion, .resumed core' completion ∈ instants n d event →
      (∀ persistenceID, completion ≠ .hardStatePersisted persistenceID) → core'.InRange := by
  have hstanding := (openRaftRuntime_inStep hwell hopen).run hrun
  have hordered := hstanding.ordered
  refine ⟨hordered.contiguous.numbered, hordered.contiguous.lastIndex,
    hordered.contiguous.lastTerm, hordered.base_le, hordered.applied_le, hordered.commit_le,
    hstanding.inRange, fun event core' completion hmem hreads => ?_⟩
  have hgood := (hstanding.sound event).2.1 _ hmem
  cases completion with
  | hardStatePersisted persistenceID => exact absurd rfl (hreads persistenceID)
  | _ => exact hgood

theorem runtime_in_range_sample : ∃ core found n d,
    openRaftRuntime threeNodes [65] compactedServer = some (core, found) ∧
      run core compactedServer.disk sampleEvents = some (n, d) ∧ n.InRange := by
  obtain ⟨core, found, n, d, hopen, hrun⟩ := sampleEvents_run
  obtain ⟨-, -, -, -, -, -, hrange, -⟩ :=
    runtime_in_range compactedServer_wellFormed hopen hrun
  exact ⟨core, found, n, d, hopen, hrun, hrange⟩

end Lifetime

/-! ## The last position -/

def wordSize : Nat := 18446744073709551616

/-- `proposeSet` with the sum of the source, which wraps. -/
def proposeSetWord (n : Node) (proposal : ProposeSet) : Node × List Action :=
  if n.role ≠ .leader then (n, [.proposalRejected proposal.proposalID n.leaderID])
  else n.proposeEntry proposal.proposalID
    { index := (n.lastLogIndex + 1) % wordSize
      term := n.term
      type := .set
      sessionID := proposal.sessionID
      sequence := proposal.sequence
      key := proposal.key
      value := proposal.value }

/-- The check of `SaveLogEntries` with the sum of the source. -/
def consecutiveWord (last : Nat) : List LogEntry → Bool
  | [] => true
  | entry :: entries =>
      entry.index == (last + 1) % wordSize && consecutiveWord (last + 1) entries

/--
`step` for a proposal, with these sums, up to the completion of its write.  `none` when the
WAL refuses the entry or the core does not ask for it to be written.
-/
def stepProposalWord (core : Node) (disk : Disk) (proposal : ProposeSet) :
    Option (Node × Disk × List Action) :=
  match proposeSetWord core proposal with
  | (core, [.proposalAccepted _ _, .persistLogEntries persistenceID 0 entries]) =>
      if consecutiveWord (Disk.lastIndex disk) entries then
        let stepped := core.step (.logEntriesPersisted persistenceID)
        some (stepped.1, { disk with log := disk.log ++ entries }, stepped.2)
      else none
  | _ => none

theorem proposeSetWord_eq {n : Node} (h : n.lastLogIndex + 1 < wordSize) (proposal : ProposeSet) :
    proposeSetWord n proposal = n.step (.proposeSet proposal) := by
  simp only [proposeSetWord, Nat.mod_eq_of_lt h]
  rfl

theorem consecutiveWord_eq {last : Nat} {entries : List LogEntry}
    (h : last + entries.length < wordSize) :
    consecutiveWord last entries = consecutive last entries := by
  induction entries generalizing last with
  | nil => rfl
  | cons entry entries ih =>
      rw [List.length_cons] at h
      rw [consecutiveWord, consecutive, Nat.mod_eq_of_lt (by omega), ih (by omega)]

theorem proposeSetWord_entries {n n' : Node} {proposal : ProposeSet} {action : Action}
    {persistenceID : Nat} {entries : List LogEntry}
    (h : proposeSetWord n proposal =
      (n', [action, .persistLogEntries persistenceID 0 entries])) : entries.length = 1 := by
  unfold proposeSetWord at h
  split at h
  · simp at h
  · simp only [Node.proposeEntry, Node.persistLog, Prod.mk.injEq, List.cons.injEq,
      Action.persistLogEntries.injEq] at h
    rw [← h.2.2.1.2.2]
    rfl

/-- Short of the last position there is, this is how `step` begins. -/
theorem stepProposalWord_eq {core core' : Node} {disk disk' : Disk} {proposal : ProposeSet}
    {released : List Action} (hcore : core.lastLogIndex + 1 < wordSize)
    (hdisk : Disk.lastIndex disk + 1 < wordSize)
    (h : stepProposalWord core disk proposal = some (core', disk', released)) :
    ∃ writes emitted, step core disk (.proposeSet proposal) =
      drain 2 { core := core', disk := disk', writes, emitted } released := by
  unfold stepProposalWord at h
  split at h
  next next proposalID index persistenceID entries hproposed =>
    have hlength := proposeSetWord_entries hproposed
    rw [proposeSetWord_eq hcore] at hproposed
    rw [consecutiveWord_eq (hlength ▸ hdisk)] at h
    split at h
    next hconsecutive =>
      obtain ⟨rfl, rfl, rfl⟩ : _ ∧ _ ∧ _ := by simpa using h
      have hsaved : Disk.saveAll disk [.entries entries] =
          some { disk with log := disk.log ++ entries } := by
        have hsome : entries ≠ [] := List.ne_nil_of_length_eq_add_one hlength
        simp [Disk.saveAll, Disk.save, hsome, hconsecutive]
      rw [step, hproposed, drain_cons _ _ rfl, drain_persist 2 _ rfl hsaved]
      exact ⟨_, _, rfl⟩
    · simp at h
  · simp at h

def edgeServer : Server where
  disk :=
    { hardState := ⟨1, []⟩
      commitIndex := 18446744073709551613
      snapshotIndex := 18446744073709551613
      snapshotTerm := 1 }
  files := [(threeNodes.machine []).snapshot (snapshotIdentity threeNodes [65])
    18446744073709551613 1]

def edgeProposal (proposalID : ProposalID) : ProposeSet :=
  { proposalID := proposalID
    sessionID := SessionID.zero
    sequence := 1
    key := []
    value := [] }

def edgeEvents : List Event :=
  [.electionTimeout,
    .preVoteResponse { sender := [66], term := 2, currentTerm := 1, granted := true },
    .voteResponse { sender := [66], term := 2, granted := true },
    .proposeSet (edgeProposal 1)]

def edgeReached : Option (Node × Disk) :=
  (openRaftRuntime threeNodes [65] edgeServer).bind fun opened =>
    run opened.1 edgeServer.disk edgeEvents

def edgeRun : Option (Node × Disk × List Action) :=
  edgeReached.bind fun reached => stepProposalWord reached.1 reached.2 (edgeProposal 2)

theorem edgeServer_wellFormed : edgeServer.disk.WellFormed :=
  ⟨by simp [edgeServer], le_rfl, le_rfl⟩

/-- The last position became zero, and what is durable of the log lies behind it. -/
theorem durable_position_wraps : edgeServer.disk.WellFormed ∧
    (edgeReached.map fun reached => reached.1.lastLogIndex) = some 18446744073709551615 ∧
    (edgeRun.map fun reached => (reached.1.lastLogIndex, reached.1.durableLogIndex, reached.2.2)) =
      some (0, 18446744073709551615, []) :=
  ⟨edgeServer_wellFormed, by decide +kernel, by decide +kernel⟩

/-- The last position lies before the commit index and is none of the log. -/
theorem last_position_wraps : edgeServer.disk.WellFormed ∧
    (edgeReached.map fun reached => reached.1.lastLogIndex) = some 18446744073709551615 ∧
    (edgeRun.map fun reached => (reached.1.logBaseIndex, reached.1.commitIndex,
      reached.1.lastLogIndex, reached.1.lastLogTerm, reached.1.termAt reached.1.lastLogIndex)) =
      some (18446744073709551613, 18446744073709551613, 0, 2, 0) :=
  ⟨edgeServer_wellFormed, by decide +kernel, by decide +kernel⟩

end QuorumKV.Runtime
