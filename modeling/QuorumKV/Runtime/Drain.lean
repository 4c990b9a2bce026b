import QuorumKV.Raft.Standing
import QuorumKV.Runtime.Step

/-!
# Draining the actions of an event

One lemma for each durability action: once its writes are made, the runtime
goes on with the core the completion leaves and with the actions it releases.
The pending table of the core is back to what it was.
-/

namespace QuorumKV.Runtime

open Raft

def Quiet (actions : List Action) : Prop := ∀ action ∈ actions, persist action = none

theorem Quiet.append {left right : List Action} (h : Quiet left) (h' : Quiet right) :
    Quiet (left ++ right) := by
  intro action hmem
  rcases List.mem_append.mp hmem with hmem | hmem
  · exact h action hmem
  · exact h' action hmem

def replicates : Action → Bool
  | .sendAppendEntries .. | .sendInstallSnapshot .. => true
  | _ => false

theorem sendAppendEntriesTo_replicates (n : Node) (peer : NodeID) (readID : ReadID) :
    ∀ action ∈ (n.sendAppendEntriesTo peer readID).2, replicates action = true := by
  unfold Node.sendAppendEntriesTo
  dsimp only
  intro action haction
  repeat' split at haction
  all_goals simp only [List.not_mem_nil, List.mem_singleton] at haction
  all_goals
    subst haction
    rfl

theorem sendToPeers_replicates (readID : ReadID) (peers : List NodeID) (n : Node) :
    ∀ action ∈ (Node.sendToPeers readID peers n).2, replicates action = true := by
  induction peers generalizing n with
  | nil => simp [Node.sendToPeers]
  | cons peer peers ih =>
      intro action haction
      rcases List.mem_append.mp haction with haction | haction
      · exact sendAppendEntriesTo_replicates _ _ _ action haction
      · exact ih _ action haction

theorem drainWith_quiet (next : Progress → List Action → Outcome) (progress : Progress)
    {actions : List Action} (h : Quiet actions) (rest : List Action) :
    drainWith next progress (actions ++ rest) =
      drainWith next { progress with emitted := progress.emitted ++ actions } rest := by
  induction actions generalizing progress with
  | nil => simp
  | cons action actions ih =>
      have hfirst := h action (by simp)
      rw [List.cons_append, drainWith, hfirst]
      simp only
      rw [ih _ fun other hmem => h other (by simp [hmem])]
      simp

theorem drain_quiet (fuel : Nat) (progress : Progress) {actions : List Action}
    (h : Quiet actions) (rest : List Action) :
    drain fuel progress (actions ++ rest) =
      drain fuel { progress with emitted := progress.emitted ++ actions } rest := by
  cases fuel with
  | zero => exact drainWith_quiet _ progress h rest
  | succ fuel => exact drainWith_quiet _ progress h rest

theorem drain_cons (fuel : Nat) (progress : Progress) {action : Action}
    (h : persist action = none) (rest : List Action) :
    drain fuel progress (action :: rest) =
      drain fuel { progress with emitted := progress.emitted ++ [action] } rest := by
  have hquiet : Quiet [action] := by simpa [Quiet] using h
  exact drain_quiet fuel progress hquiet rest

theorem drain_nil (fuel : Nat) (progress : Progress) :
    drain fuel progress [] = .completed progress := by
  cases fuel <;> rfl

theorem drain_all_quiet (fuel : Nat) (progress : Progress) {actions : List Action}
    (h : Quiet actions) :
    drain fuel progress actions =
      .completed { progress with emitted := progress.emitted ++ actions } := by
  have hdrain := drain_quiet fuel progress h []
  rwa [List.append_nil, drain_nil] at hdrain

/-! ## Writes -/

namespace Disk

def saveAll (disk : Disk) : List Write → Option Disk
  | [] => some disk
  | write :: writes => (save disk write).bind fun disk => saveAll disk writes

end Disk

theorem Progress.save_eq {progress : Progress} {writes : List Write} {disk : Disk}
    (h : Disk.saveAll progress.disk writes = some disk) :
    progress.save writes =
      ({ progress with disk := disk, writes := progress.writes ++ writes }, true) := by
  induction writes generalizing progress with
  | nil =>
      obtain rfl : progress.disk = disk := by simpa [Disk.saveAll] using h
      simp [Progress.save]
  | cons write writes ih =>
      obtain ⟨next, hnext, hrest⟩ := Option.bind_eq_some_iff.mp h
      simp only [Progress.save, hnext]
      rw [ih hrest]
      simp

theorem Progress.save_core (progress : Progress) (writes : List Write) :
    (progress.save writes).1.core = progress.core ∧
      (progress.save writes).1.emitted = progress.emitted := by
  induction writes generalizing progress with
  | nil => exact ⟨rfl, rfl⟩
  | cons write writes ih =>
      unfold Progress.save
      split
      · exact ⟨rfl, rfl⟩
      · exact ih _

theorem drainWith_invariant {motive : Node → Prop} {sound : Action → Prop}
    {next : Progress → List Action → Outcome}
    (hstep : ∀ n action writes completion, persist action = some (writes, completion) →
      motive n → motive (n.step completion).1 ∧ ∀ later ∈ (n.step completion).2, sound later)
    (hnext : ∀ progress actions progress', next progress actions = .completed progress' →
      motive progress.core → (∀ action ∈ progress.emitted ++ actions, sound action) →
      motive progress'.core ∧ ∀ action ∈ progress'.emitted, sound action)
    {progress progress' : Progress} {actions : List Action}
    (h : drainWith next progress actions = .completed progress') (hcore : motive progress.core)
    (hactions : ∀ action ∈ progress.emitted ++ actions, sound action) :
    motive progress'.core ∧ ∀ action ∈ progress'.emitted, sound action := by
  induction actions generalizing progress with
  | nil =>
      cases h
      exact ⟨hcore, by simpa using hactions⟩
  | cons action actions ih =>
      rw [drainWith] at h
      split at h
      · exact ih h hcore (by simpa [List.append_assoc] using hactions)
      next writes completion haction =>
        obtain ⟨hsaved, hemitted⟩ := progress.save_core writes
        split at h
        · simp at h
        next saved hsave =>
          rw [hsave] at hsaved hemitted
          dsimp only at hsaved hemitted
          obtain ⟨hmotive, hlater⟩ := hstep saved.core action writes completion haction
            (by rwa [hsaved])
          refine hnext _ _ _ h hmotive fun other hmem => ?_
          rw [hemitted, ← List.append_assoc] at hmem
          rcases List.mem_append.mp hmem with hmem | hmem
          · refine hactions other ?_
            rcases List.mem_append.mp hmem with hmem | hmem
            · exact List.mem_append_left _ hmem
            · exact List.mem_append_right _ (List.mem_cons_of_mem _ hmem)
          · exact hlater other hmem

/-- What every completion keeps is kept by a step that completes, for what it emits too. -/
theorem drain_invariant {motive : Node → Prop} {sound : Action → Prop}
    (hstep : ∀ n action writes completion, persist action = some (writes, completion) →
      motive n → motive (n.step completion).1 ∧ ∀ later ∈ (n.step completion).2, sound later)
    {fuel : Nat} {progress progress' : Progress} {actions : List Action}
    (h : drain fuel progress actions = .completed progress') (hcore : motive progress.core)
    (hactions : ∀ action ∈ progress.emitted ++ actions, sound action) :
    motive progress'.core ∧ ∀ action ∈ progress'.emitted, sound action := by
  induction fuel generalizing progress progress' actions with
  | zero =>
      exact drainWith_invariant hstep (fun _ _ _ hnone => by simp at hnone) h hcore hactions
  | succ fuel ih =>
      exact drainWith_invariant hstep (fun _ _ _ hnext hmotive hsound => ih hnext hmotive hsound) h
        hcore hactions

theorem drain_core {motive : Node → Prop}
    (hstep : ∀ n action writes completion, persist action = some (writes, completion) →
      motive n → motive (n.step completion).1)
    {fuel : Nat} {progress progress' : Progress} {actions : List Action}
    (h : drain fuel progress actions = .completed progress') (hcore : motive progress.core) :
    motive progress'.core :=
  (@drain_invariant motive (fun _ => True)
    (fun n action writes completion haction hn =>
      ⟨hstep n action writes completion haction hn, fun _ _ => trivial⟩) _ _ _ _ h hcore
    fun _ _ => trivial).1

theorem drain_persist (fuel : Nat) (progress : Progress) {action : Action}
    {writes : List Write} {completion : Event} {disk : Disk}
    (haction : persist action = some (writes, completion))
    (hsaved : Disk.saveAll progress.disk writes = some disk) (rest : List Action) :
    drain (fuel + 1) progress (action :: rest) =
      drain fuel { progress with
        core := (progress.core.step completion).1
        disk := disk
        writes := progress.writes ++ writes } (rest ++ (progress.core.step completion).2) := by
  simp only [drain, drainWith, haction, Progress.save_eq hsaved]

/-! ## Completions -/

theorem standing_completion {core : Node} {action : Action} {writes : List Write}
    {completion : Event} (h : persist action = some (writes, completion)) :
    (core.step completion).1.standing = core.standing := by
  cases action with
  | persistHardState id term votedFor =>
      cases h
      exact Node.standing_hardStatePersisted id
  | persistLogEntries id truncateFrom entries =>
      cases h
      exact Node.standing_logEntriesPersisted id
  | persistCommitIndex id index =>
      cases h
      exact Node.standing_commitIndexPersisted id
  | persistSnapshot id index term retainSuffix =>
      cases h
      exact Node.standing_snapshotPersisted id
  | _ => simp [persist] at h

theorem step_standing {core : Node} {disk : Disk} {event : Event} {progress : Progress}
    (h : Runtime.step core disk event = .completed progress) :
    progress.core.standing = (core.step event).1.standing :=
  @drain_core (fun n => n.standing = (core.step event).1.standing)
    (fun _ _ _ _ haction hn => (standing_completion haction).trans hn) _ _ _ _ h rfl

def hardened (n : Node) : Node :=
  { n with
    nextHardStatePersistence := n.nextHardStatePersistence + 1
    durableTerm := n.term
    durableVotedFor := n.votedFor }

theorem step_hardStatePersisted (n : Node) (after : List Action)
    (hnone : n.pendingHardState = fun _ => none) :
    (n.persistHardState after).1.step (.hardStatePersisted (n.nextHardStatePersistence + 1)) =
      (hardened n, after) := by
  simp [Node.step, Node.hardStatePersisted, Node.persistHardState, Node.completeHardState,
    hardened, hnone]

theorem drain_hardState (fuel : Nat) (n : Node) (after rest : List Action) (disk : Disk)
    (writes : List Write) (emitted : List Action)
    (hnone : n.pendingHardState = fun _ => none) :
    drain (fuel + 1)
        { core := (n.persistHardState after).1, disk, writes, emitted }
        ((n.persistHardState after).2 ++ rest) =
      drain fuel
        { core := hardened n
          disk := { disk with hardState := ⟨n.term, n.votedFor⟩ }
          writes := writes ++ [.hardState ⟨n.term, n.votedFor⟩]
          emitted } (rest ++ after) := by
  have hstep := step_hardStatePersisted n after hnone
  simp only [Node.persistHardState, List.singleton_append]
  rw [drain_persist fuel _ rfl rfl]
  simp only [Node.persistHardState] at hstep
  rw [hstep]

def logged (n : Node) (index : Nat) : Node :=
  { n with
    nextLogPersistence := n.nextLogPersistence + 1
    durableLogIndex := max n.durableLogIndex index }

def afterLog (n : Node) (pending : PendingLogPersistence) : Node × List Action :=
  match pending.purpose with
  | .persistLeaderEntry =>
      if n.role ≠ .leader ∨ n.term ≠ pending.term ∨
          n.lastLogIndex < pending.lastIndex then (n, [])
      else n.sendAppendEntries 0
  | .persistFollowerAppend =>
      if n.term ≠ pending.term ∨ n.role ≠ .follower ∨
          n.leaderID ≠ pending.leader then (n, [])
      else n.advanceFollowerCommit pending.leaderCommit
        (n.appendEntriesResponse pending.leader pending.requestID true
          pending.lastIndex 0 0 pending.readID)

theorem step_logEntriesPersisted (n : Node) (entries : List LogEntry)
    (pending : PendingLogPersistence) (hnone : n.pendingLog = fun _ => none) :
    (n.persistLog entries pending).1.step (.logEntriesPersisted (n.nextLogPersistence + 1)) =
      afterLog (logged n pending.lastIndex) pending := by
  simp only [Node.step, Node.logEntriesPersisted, Node.persistLog, Function.update_self,
    Node.completeLog, logged, afterLog, hnone]
  rewrite [Function.update_idem, Function.update_eq_self_iff.mpr rfl]
  rfl

theorem drain_log (fuel : Nat) (n : Node) (entries : List LogEntry)
    (pending : PendingLogPersistence) (rest : List Action) (disk disk' : Disk)
    (writes : List Write) (emitted : List Action) (hnone : n.pendingLog = fun _ => none)
    (hsaved : Disk.saveAll disk
      ((if pending.truncateFrom ≠ 0 then [.truncation pending.truncateFrom] else []) ++
        [.entries entries]) = some disk') :
    drain (fuel + 1)
        { core := (n.persistLog entries pending).1, disk, writes, emitted }
        ((n.persistLog entries pending).2 ++ rest) =
      drain fuel
        { core := (afterLog (logged n pending.lastIndex) pending).1
          disk := disk'
          writes := writes ++
            ((if pending.truncateFrom ≠ 0 then [.truncation pending.truncateFrom] else []) ++
              [.entries entries])
          emitted }
        (rest ++ (afterLog (logged n pending.lastIndex) pending).2) := by
  have hstep := step_logEntriesPersisted n entries pending hnone
  simp only [Node.persistLog, List.singleton_append]
  rw [drain_persist fuel _ rfl hsaved]
  simp only [Node.persistLog] at hstep
  rw [hstep]

def settled (n : Node) : Node :=
  { n with
    nextCommitPersistence := n.nextCommitPersistence + 1
    durableCommitIndex := max n.durableCommitIndex n.commitIndex }

theorem step_commitIndexPersisted (n : Node) (after : List Action)
    (hnone : n.pendingCommit = fun _ => none) :
    (n.persistCommit after).1.step (.commitIndexPersisted (n.nextCommitPersistence + 1)) =
      (((settled n).applyThrough n.commitIndex).1,
        ((settled n).applyThrough n.commitIndex).2 ++ after) := by
  simp [Node.step, Node.commitIndexPersisted, Node.persistCommit, Node.completeCommit, settled,
    hnone]

theorem drain_commit (fuel : Nat) (n : Node) (after rest : List Action) (disk : Disk)
    (writes : List Write) (emitted : List Action) (hnone : n.pendingCommit = fun _ => none)
    (hcommit : disk.commitIndex ≤ n.commitIndex)
    (hlast : n.commitIndex ≤ Disk.lastIndex disk) :
    drain (fuel + 1)
        { core := (n.persistCommit after).1, disk, writes, emitted }
        ((n.persistCommit after).2 ++ rest) =
      drain fuel
        { core := ((settled n).applyThrough n.commitIndex).1
          disk := { disk with commitIndex := n.commitIndex }
          writes := writes ++ [.commitIndex n.commitIndex]
          emitted }
        (rest ++ (((settled n).applyThrough n.commitIndex).2 ++ after)) := by
  have hsaved : Disk.saveAll disk [.commitIndex n.commitIndex] =
      some { disk with commitIndex := n.commitIndex } := by
    simp [Disk.saveAll, Disk.save, Nat.not_lt.mpr hcommit, Nat.not_lt.mpr hlast]
  have hstep := step_commitIndexPersisted n after hnone
  simp only [Node.persistCommit, List.singleton_append]
  rw [drain_persist fuel _ rfl hsaved]
  simp only [Node.persistCommit] at hstep
  rw [hstep]

theorem step_snapshotPersisted (n : Node) (request : InstallSnapshot) (retainSuffix : Bool)
    (hnone : n.pendingSnapshot = fun _ => none) :
    (n.persistSnapshot request retainSuffix).1.step
        (.snapshotPersisted (n.nextSnapshotPersistence + 1)) =
      { n with
        nextSnapshotPersistence := n.nextSnapshotPersistence + 1 }.completeSnapshot
          ⟨request, retainSuffix⟩ := by
  simp [Node.step, Node.snapshotPersisted, Node.persistSnapshot, hnone]

theorem drain_snapshot (fuel : Nat) (n : Node) (request : InstallSnapshot)
    (retainSuffix : Bool) (rest : List Action) (disk disk' : Disk) (writes : List Write)
    (emitted : List Action) (hnone : n.pendingSnapshot = fun _ => none)
    (hsaved : Disk.save disk
      (.snapshot request.snapshotIndex request.snapshotTerm retainSuffix) = some disk') :
    drain (fuel + 1)
        { core := (n.persistSnapshot request retainSuffix).1, disk, writes, emitted }
        ((n.persistSnapshot request retainSuffix).2 ++ rest) =
      drain fuel
        { core := ({ n with
            nextSnapshotPersistence := n.nextSnapshotPersistence + 1 }.completeSnapshot
              ⟨request, retainSuffix⟩).1
          disk := disk'
          writes := writes ++
            [.snapshot request.snapshotIndex request.snapshotTerm retainSuffix]
          emitted }
        (rest ++ ({ n with
            nextSnapshotPersistence := n.nextSnapshotPersistence + 1 }.completeSnapshot
              ⟨request, retainSuffix⟩).2) := by
  have hstep := step_snapshotPersisted n request retainSuffix hnone
  have hall : Disk.saveAll disk
      [.snapshot request.snapshotIndex request.snapshotTerm retainSuffix] = some disk' := by
    simp [Disk.saveAll, hsaved]
  simp only [Node.persistSnapshot, List.singleton_append]
  rw [drain_persist fuel _ rfl hall]
  simp only [Node.persistSnapshot] at hstep
  rw [hstep]

theorem drain_snapshot_refused (fuel : Nat) (n : Node) (request : InstallSnapshot)
    (retainSuffix : Bool) (disk : Disk) (writes : List Write) (emitted : List Action)
    (hrefused : Disk.save disk
      (.snapshot request.snapshotIndex request.snapshotTerm retainSuffix) = none) :
    drain (fuel + 1)
        { core := (n.persistSnapshot request retainSuffix).1, disk, writes, emitted }
        (n.persistSnapshot request retainSuffix).2 =
      .refused { core := (n.persistSnapshot request retainSuffix).1, disk, writes, emitted } := by
  simp only [drain, drainWith, Node.persistSnapshot, persist, Progress.save, hrefused]

end QuorumKV.Runtime
