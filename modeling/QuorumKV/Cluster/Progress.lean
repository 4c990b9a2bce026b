import QuorumKV.Cluster.Stability
import QuorumKV.Runtime.Drain

/-!
# What a step of the runtime achieves

`Achieves` says what a step does to the disk and the core of its node, in terms
of a consensus state: whatever the writes completed before a crash, some steps
of the node explain the disk; and when the step completes, the core agrees with
its disk again, its messages are true, and its applications follow the
committed log.
-/

namespace QuorumKV.Cluster

open Raft QuorumKV.Runtime Session Foundation

/-! ## The durable part of a core -/

def body (n : Node) : Node :=
  { n with
    role := .follower
    leaderID := []
    readReady := false
    votes := ∅
    preVotes := ∅
    activePeers := ∅
    matchIndex := fun _ => 0
    nextIndex := fun _ => 0
    appendInFlight := fun _ => {}
    snapshotInFlight := fun _ => 0
    nextRequestID := 0
    pendingReads := []
    recentLeaderContact := false
    nextHardStatePersistence := 0
    nextLogPersistence := 0
    nextCommitPersistence := 0
    nextSnapshotPersistence := 0 }

theorem holds_of_body {n n' : Node} {log : List LogEntry} (h : n.Holds log)
    (hbody : body n' = body n) : n'.Holds log :=
  h.of_parts (congrArg Node.logParts hbody :)

theorem atRest_body {config : Config} {σ : Ideal} {id : NodeID} {files : List Snapshot.State}
    {disk : Disk} {n : Node} :
    AtRest config σ id files disk (body n) ↔ AtRest config σ id files disk n :=
  ⟨fun h => { h with holds := h.holds.of_parts rfl },
    fun h => { h with holds := h.holds.of_parts rfl }⟩

theorem AtRest.of_body {config : Config} {σ : Ideal} {id : NodeID}
    {files : List Snapshot.State} {disk : Disk} {n n' : Node}
    (h : AtRest config σ id files disk n) (hbody : body n' = body n) :
    AtRest config σ id files disk n' := by
  rw [← atRest_body, hbody]
  exact atRest_body.mpr h

/-! ## Writes and crashes -/

inductive Persists (config : Config) (guarded : Prop) (id : NodeID)
    (files : List Snapshot.State) : Ideal → Disk → List Write → Ideal → Disk → Prop where
  | done (σ : Ideal) (disk : Disk) : Persists config guarded id files σ disk [] σ disk
  | write {σ σ' σ'' : Ideal} {disk disk' disk'' : Disk} {write : Write} {writes : List Write}
      (interrupted : ∀ kept, ∃ σ₁, Acts config id σ σ₁ ∧
        Stored guarded σ₁ id files (Disk.interrupt disk kept write))
      (saved : Disk.save disk write = some disk') (acts : Acts config id σ σ')
      (stored : Stored guarded σ' id files disk')
      (rest : Persists config guarded id files σ' disk' writes σ'' disk'') :
      Persists config guarded id files σ disk (write :: writes) σ'' disk''

section Persistence

variable {config : Config} {guarded : Prop} {id : NodeID} {files : List Snapshot.State}
  {σ σ' σ'' : Ideal} {disk disk' disk'' : Disk}

theorem Acts.refl (hvalid : σ.Valid LogEntry.term config.Quorum) (htidy : Tidy config σ) :
    Acts config id σ σ :=
  { Consensus.ActsAt.refl hvalid with tidy := htidy }

theorem Acts.trans (h : Acts config id σ σ') (h' : Acts config id σ' σ'') :
    Acts config id σ σ'' :=
  { h.toActsAt.trans h'.toActsAt with tidy := h'.tidy }

theorem Persists.trans {writes writes' : List Write}
    (h : Persists config guarded id files σ disk writes σ' disk')
    (h' : Persists config guarded id files σ' disk' writes' σ'' disk'') :
    Persists config guarded id files σ disk (writes ++ writes') σ'' disk'' := by
  induction h with
  | done => exact h'
  | write interrupted saved acts stored rest ih =>
      exact .write interrupted saved acts stored (ih h')

theorem Persists.acts {writes : List Write} (hacts : Acts config id σ σ)
    (h : Persists config guarded id files σ disk writes σ' disk') : Acts config id σ σ' := by
  induction h with
  | done => exact hacts
  | write interrupted saved acts stored rest ih =>
      exact acts.trans (ih (Acts.refl acts.valid acts.tidy))

theorem Persists.before {write : Write} {writes : List Write} (hacts : Acts config id σ σ')
    (h : Persists config guarded id files σ' disk (write :: writes) σ'' disk') :
    Persists config guarded id files σ disk (write :: writes) σ'' disk' := by
  cases h with
  | write interrupted saved acts stored rest =>
      refine .write (fun kept => ?_) saved (hacts.trans acts) stored rest
      obtain ⟨σ₁, hacts₁, hstored₁⟩ := interrupted kept
      exact ⟨σ₁, hacts.trans hacts₁, hstored₁⟩

theorem Persists.single {write : Write} (hstored : Stored guarded σ id files disk)
    (hrefl : Acts config id σ σ) (hwhole : ∀ kept, Disk.interrupt disk kept write = disk)
    (saved : Disk.save disk write = some disk') (acts : Acts config id σ σ')
    (stored : Stored guarded σ' id files disk') :
    Persists config guarded id files σ disk [write] σ' disk' :=
  .write (fun kept => ⟨σ, hrefl, by rw [hwhole]; exact hstored⟩) saved acts stored (.done _ _)

/-- Wherever a crash falls, steps of the node explain the disk it leaves. -/
theorem Persists.crashed {writes : List Write} (hacts : Acts config id σ σ)
    (hstored : Stored guarded σ id files disk)
    (h : Persists config guarded id files σ disk writes σ' disk') (kept calls : Nat) :
    ∃ σ₁, Acts config id σ σ₁ ∧ Stored guarded σ₁ id files (crashed disk kept calls writes) := by
  induction h generalizing calls with
  | done => exact ⟨_, hacts, by simpa only [Runtime.crashed] using hstored⟩
  | write interrupted saved acts stored rest ih =>
      cases calls with
      | zero => exact interrupted kept
      | succ calls =>
          obtain ⟨σ₁, hacts₁, hstored₁⟩ := ih (Acts.refl acts.valid acts.tidy) stored calls
          refine ⟨σ₁, acts.trans hacts₁, ?_⟩
          simpa only [Runtime.crashed, saved] using hstored₁

end Persistence

/-! ## Actions -/

def Plain : Action → Prop
  | .persistHardState .. | .persistLogEntries .. | .persistCommitIndex ..
  | .persistSnapshot .. | .restoreSnapshot .. | .applyEntry _ | .readConfirmed ..
  | .proposalAccepted .. => False
  | _ => True

def Mild : Action → Prop
  | .readConfirmed .. => True
  | action => Plain action

theorem mild_of_plain {action : Action} (h : Plain action) : Mild action := by
  cases action <;> first | exact h | trivial

theorem quiet_of_mild {actions : List Action} (h : ∀ action ∈ actions, Mild action) :
    Quiet actions := by
  intro action hmem
  have hmild := h action hmem
  cases action <;> first | rfl | exact hmild.elim

theorem quiet_of_plain {actions : List Action} (h : ∀ action ∈ actions, Plain action) :
    Quiet actions :=
  quiet_of_mild fun action hmem => mild_of_plain (h action hmem)

/--
The applications of a step along a log, from one applied position to the next.
`confirms` says when a read may be confirmed at a position.
-/
def Walk (log : List LogEntry) (confirms : ReadID → Nat → Prop) :
    Nat → List Action → Nat → Prop
  | applied, [], last => applied = last
  | applied, .applyEntry entry :: actions, last =>
      log[applied]? = some entry ∧ Walk log confirms (applied + 1) actions last
  | _, .restoreSnapshot index term :: actions, last =>
      index ≤ log.length ∧ term = termAt LogEntry.term log index ∧
        Walk log confirms index actions last
  | applied, .readConfirmed readID _ :: actions, last =>
      confirms readID applied ∧ Walk log confirms applied actions last
  | applied, _ :: actions, last => Walk log confirms applied actions last

section Walking

variable {log : List LogEntry} {confirms : ReadID → Nat → Prop}

theorem Walk.plain {actions : List Action} (h : ∀ action ∈ actions, Plain action)
    (applied : Nat) : Walk log confirms applied actions applied := by
  induction actions with
  | nil => rfl
  | cons action actions ih =>
      have hplain := h action (by simp)
      have hrest := ih fun other hmem => h other (by simp [hmem])
      cases action <;> first | exact hrest | exact hplain.elim

theorem Walk.append {left right : List Action} {first middle last : Nat}
    (h : Walk log confirms first left middle)
    (h' : Walk log confirms middle right last) :
    Walk log confirms first (left ++ right) last := by
  induction left generalizing first with
  | nil =>
      obtain rfl : first = middle := h
      exact h'
  | cons action left ih =>
      cases action <;>
        first
          | exact ⟨h.1, ih h.2⟩
          | exact ⟨h.1, h.2.1, ih h.2.2⟩
          | exact ih h

theorem Walk.cons_plain {action : Action} {actions : List Action} {first last : Nat}
    (hplain : Plain action) (h : Walk log confirms first actions last) :
    Walk log confirms first (action :: actions) last := by
  cases action <;> first | exact h | exact hplain.elim

theorem Walk.le {actions : List Action} {first last : Nat}
    (h : Walk log confirms first actions last)
    (hnone : ∀ index term, .restoreSnapshot index term ∉ actions) : first ≤ last := by
  induction actions generalizing first with
  | nil => exact Nat.le_of_eq h
  | cons action actions ih =>
      have hrest : ∀ index term, .restoreSnapshot index term ∉ actions :=
        fun index term hmem => hnone index term (by simp [hmem])
      cases action with
      | applyEntry entry => exact (Nat.le_succ _).trans (ih h.2 hrest)
      | restoreSnapshot index term => exact absurd (by simp) (hnone index term)
      | readConfirmed readID index => exact ih h.2 hrest
      | _ => exact ih h hrest

end Walking

section Achievements

variable (config : Config) (guarded : Prop) (σ : Ideal) (ρ : Rounds) (id : NodeID)

def Announces : Action → Prop
  | .sendVoteRequest dest r => Truthful config guarded σ ρ dest (.voteRequest r)
  | .sendVoteResponse dest r => Truthful config guarded σ ρ dest (.voteResponse r)
  | .sendAppendEntries dest r => Truthful config guarded σ ρ dest (.appendEntries r)
  | .sendAppendEntriesResponse dest r =>
      Truthful config guarded σ ρ dest (.appendEntriesResponse r)
  | .sendInstallSnapshotResponse dest r =>
      Truthful config guarded σ ρ dest (.installSnapshotResponse r)
  | .sendInstallSnapshot dest term requestID index snapshotTerm _ =>
      TrueSnapshot guarded σ dest id term requestID index snapshotTerm
  | _ => True

def Confirms (n : Node) (readID : ReadID) (applied : Nat) : Prop :=
  readID ∈ n.pendingReads.map PendingRead.id ∧
    ∃ round, ρ n.term readID = some round ∧ round.floor ≤ applied

end Achievements

/--
A completed step, from the core `n` with its disk and the consensus state `σ` to
the core `n'` with its disk and the consensus state `σ'`.
-/
structure Completes (config : Config) (guarded : Prop) (id : NodeID)
    (files : List Snapshot.State) (ρ : Rounds) (event : Event) (σ : Ideal) (disk : Disk)
    (n : Node) (σ' : Ideal) (disk' : Disk) (n' : Node) (emitted : List Action) : Prop where
  stored : Stored guarded σ' id files disk'
  rest : AtRest config σ' id files disk' n'
  campaigns : n'.role = .candidate → Campaigns config σ' id n'
  leads : n'.role = .leader → Leads σ' id n'
  replicates : guarded → n'.role = .leader → Replicates config σ' ρ id n'
  idle : n'.role ≠ .leader ∨ n.role ≠ .leader → n'.pendingReads = []
  elected : n.role ≠ .leader → n'.role = .leader → σ.lead n'.term = none
  sends : ∀ action ∈ emitted, Announces config guarded σ' ρ id action
  walk : Walk ((σ'.log id).take n'.commitIndex)
    (fun readID applied => guarded → Confirms ρ n readID applied) n.lastApplied emitted
    n'.lastApplied
  base_mono : disk.snapshotIndex ≤ disk'.snapshotIndex
  commit_mono : disk.commitIndex ≤ disk'.commitIndex
  keeps : disk.commitIndex ≤ disk'.snapshotIndex ∨
    (σ.log id).take disk.commitIndex <+: σ'.log id
  continues : n.role = .leader → n'.role = .leader →
    n'.term = n.term ∧ σ.log id <+: σ'.log id
  applies : guarded → n.role = .leader → ∀ entry, .applyEntry entry ∈ emitted →
    n'.role = .leader
  accepts : ∀ proposalID index, .proposalAccepted proposalID index ∈ emitted →
    n.role = .leader ∧ n'.role = .leader ∧ index = (σ.log id).length + 1 ∧
      ∀ request, requested event = some request →
        Waits σ' id n'.term n'.lastApplied index request
  begun : ∀ read ∈ n'.pendingReads,
    read.id ∈ n.pendingReads.map PendingRead.id ∨ event = .confirmRead read.id
  restores : ∀ index term, .restoreSnapshot index term ∈ emitted →
    installs n event = some (index, term) ∧ n'.role ≠ .leader ∧ n'.lastApplied = index ∧
      (∀ entry, .applyEntry entry ∉ emitted) ∧ emitted.count (.restoreSnapshot index term) = 1

structure Begins (config : Config) (guarded : Prop) (id : NodeID) (files : List Snapshot.State)
    (event : Event) (σ : Ideal) (disk : Disk) (n : Node) (σ₀ : Ideal) : Prop where
  acts : Acts config id σ σ₀
  stored : Stored guarded σ₀ id files disk
  elected : n.role ≠ .leader → (n.step event).1.role = .leader →
    σ₀.lead (n.step event).1.term = some id
  commits : guarded → n.role = .leader → (n.step event).1.role = .leader →
    (n.step event).1.commitIndex ≤
      max n.commitIndex (min n.lastLogIndex (σ₀.lcommit n.term))

def Refusable (guarded : Prop) (event : Event) (disk : Disk) (n : Node) : Prop :=
  ∃ index term, installs n event = some (index, term) ∧ (guarded → index < disk.snapshotIndex)

section Ending

variable (config : Config) (guarded : Prop) (id : NodeID) (files : List Snapshot.State)
  (ρ : Rounds) (event : Event) (σ : Ideal) (disk : Disk) (n : Node)

/--
How a step ends that has made the calls `writes`, its disk then being `disk₁` in
the consensus state `σ₁`.
-/
def Finishes (writes : List Write) (σ₁ : Ideal) (disk₁ : Disk) : Outcome → Prop
  | .exhausted => False
  | .refused progress =>
      Refusable guarded event disk n ∧ ∃ later σ₂, progress.writes = writes ++ later ∧
        Persists config guarded id files σ₁ disk₁ later σ₂ progress.disk
  | .completed progress =>
      ∃ later σ₂ σ₃, progress.writes = writes ++ later ∧
        Persists config guarded id files σ₁ disk₁ later σ₂ progress.disk ∧
        Acts config id σ₂ σ₃ ∧
        Completes config guarded id files ρ event σ disk n σ₃ progress.disk progress.core
          progress.emitted

def Achieves : Prop :=
  ∃ σ₀, Begins config guarded id files event σ disk n σ₀ ∧
    Finishes config guarded id files ρ event σ disk n [] σ₀ disk (Runtime.step n disk event)

variable {config guarded id files ρ event σ disk n}

theorem Finishes.after {writes later : List Write} {σ₀ σ₁ : Ideal} {disk₀ disk₁ : Disk}
    {outcome : Outcome} (hpersists : Persists config guarded id files σ₀ disk₀ later σ₁ disk₁)
    (h : Finishes config guarded id files ρ event σ disk n (writes ++ later) σ₁ disk₁ outcome) :
    Finishes config guarded id files ρ event σ disk n writes σ₀ disk₀ outcome := by
  cases outcome with
  | exhausted => exact h
  | refused progress =>
      obtain ⟨hrefusable, rest, σ₂, hwrites, hrest⟩ := h
      exact ⟨hrefusable, later ++ rest, σ₂, by rw [hwrites, List.append_assoc], hpersists.trans hrest⟩
  | completed progress =>
      obtain ⟨rest, σ₂, σ₃, hwrites, hrest, hcompletes⟩ := h
      exact ⟨later ++ rest, σ₂, σ₃, by rw [hwrites, List.append_assoc], hpersists.trans hrest,
        hcompletes⟩

theorem Finishes.before {writes : List Write} {σ₁ σ₂ : Ideal} {disk₁ : Disk} {outcome : Outcome}
    (hacts : Acts config id σ₁ σ₂)
    (h : Finishes config guarded id files ρ event σ disk n writes σ₂ disk₁ outcome) :
    Finishes config guarded id files ρ event σ disk n writes σ₁ disk₁ outcome := by
  cases outcome with
  | exhausted => exact h
  | refused progress =>
      obtain ⟨hrefusable, later, σ₃, hwrites, hlater⟩ := h
      cases later with
      | nil =>
          cases hlater
          exact ⟨hrefusable, [], σ₁, hwrites, .done _ _⟩
      | cons write later => exact ⟨hrefusable, _, σ₃, hwrites, hlater.before hacts⟩
  | completed progress =>
      obtain ⟨later, σ₃, σ₄, hwrites, hlater, hacts', hcompletes⟩ := h
      cases later with
      | nil =>
          cases hlater
          exact ⟨[], σ₁, σ₄, hwrites, .done _ _, hacts.trans hacts', hcompletes⟩
      | cons write later =>
          exact ⟨_, σ₃, σ₄, hwrites, hlater.before hacts, hacts', hcompletes⟩

theorem Finishes.completed {progress : Progress} {σ₁ σ₂ : Ideal}
    (hacts : Acts config id σ₁ σ₂)
    (h : Completes config guarded id files ρ event σ disk n σ₂ progress.disk progress.core
      progress.emitted) :
    Finishes config guarded id files ρ event σ disk n progress.writes σ₁ progress.disk
      (.completed progress) :=
  ⟨[], σ₁, σ₂, (List.append_nil _).symm, .done _ _, hacts, h⟩

end Ending

section Events

variable {config : Config} {guarded : Prop} {id : NodeID} {files : List Snapshot.State}
  {ρ : Rounds} {event : Event} {σ σ' : Ideal} {disk : Disk} {n n₁ : Node}

theorem Achieves.mild (n' : Node) (actions : List Action) (hrefl : Acts config id σ σ)
    (hstored : Stored guarded σ id files disk) (hrest : AtRest config σ id files disk n)
    (hstep : n.step event = (n', actions))
    (hbody : body n' = body n) (hmild : ∀ action ∈ actions, Mild action)
    (hwalk : ∀ log, Walk log (fun readID applied => guarded → Confirms ρ n readID applied)
      n.lastApplied actions n.lastApplied)
    (hsends : ∀ action ∈ actions, Announces config guarded σ ρ id action)
    (hleader : n'.role = .leader → n.role = .leader)
    (hcampaigns : n'.role = .candidate → Campaigns config σ id n')
    (hleads : n.role = .leader → Leads σ id n)
    (hreplicates : guarded → n'.role = .leader → Replicates config σ ρ id n')
    (hidle : n'.role ≠ .leader → n'.pendingReads = [])
    (hbegun : ∀ read ∈ n'.pendingReads,
      read.id ∈ n.pendingReads.map PendingRead.id ∨ event = .confirmRead read.id) :
    Achieves config guarded id files ρ event σ disk n := by
  have hterm : n'.term = n.term := (congrArg Node.term hbody :)
  have happlied : n'.lastApplied = n.lastApplied := (congrArg Node.lastApplied hbody :)
  have hcommit : n'.commitIndex = n.commitIndex := (congrArg Node.commitIndex hbody :)
  refine ⟨σ, ⟨hrefl, hstored, fun hrole hrole' => ?_, fun _ _ _ => ?_⟩, ?_⟩
  · rw [hstep] at hrole'
    exact absurd (hleader hrole') hrole
  · rw [hstep, hcommit]
    exact le_max_left _ _
  rw [Runtime.step, hstep, drain_all_quiet _ _ (quiet_of_mild hmild)]
  refine Finishes.completed hrefl ?_
  exact
    { stored := hstored
      rest := hrest.of_body hbody
      campaigns := hcampaigns
      leads := fun hrole => by
        obtain ⟨hlead, hlog, hlast⟩ := hleads (hleader hrole)
        exact ⟨hterm ▸ hlead, hterm ▸ hlog, hterm ▸ hlast⟩
      replicates := hreplicates
      idle := fun hrole => by
        refine hidle ?_
        rcases hrole with hrole | hrole
        · exact hrole
        · exact fun hrole' => hrole (hleader hrole')
      elected := fun hrole hrole' => absurd (hleader hrole') hrole
      sends := by simpa using hsends
      walk := by
        simp only [List.nil_append, happlied]
        exact hwalk _
      base_mono := le_rfl
      commit_mono := le_rfl
      keeps := .inr (List.take_prefix _ _)
      continues := fun _ _ => ⟨hterm, List.prefix_rfl⟩
      applies := fun _ _ entry hmem =>
        False.elim (hmild (.applyEntry entry) (by simpa using hmem))
      accepts := fun proposalID index hmem =>
        False.elim (hmild (.proposalAccepted proposalID index) (by simpa using hmem))
      begun := hbegun
      restores := fun index term hmem =>
        False.elim (hmild (.restoreSnapshot index term) (by simpa using hmem)) }

theorem Achieves.plain (n' : Node) (actions : List Action) (hrefl : Acts config id σ σ)
    (hstored : Stored guarded σ id files disk) (hrest : AtRest config σ id files disk n)
    (hstep : n.step event = (n', actions))
    (hbody : body n' = body n) (hplain : ∀ action ∈ actions, Plain action)
    (hsends : ∀ action ∈ actions, Announces config guarded σ ρ id action)
    (hleader : n'.role = .leader → n.role = .leader)
    (hcampaigns : n'.role = .candidate → Campaigns config σ id n')
    (hleads : n.role = .leader → Leads σ id n)
    (hreplicates : guarded → n'.role = .leader → Replicates config σ ρ id n')
    (hidle : n'.role ≠ .leader → n'.pendingReads = [])
    (hbegun : ∀ read ∈ n'.pendingReads,
      read.id ∈ n.pendingReads.map PendingRead.id ∨ event = .confirmRead read.id) :
    Achieves config guarded id files ρ event σ disk n :=
  .mild n' actions hrefl hstored hrest hstep hbody
    (fun action hmem => mild_of_plain (hplain action hmem)) (fun _ => Walk.plain hplain _) hsends
    hleader hcampaigns hleads hreplicates hidle hbegun

theorem Stored.hardState (h : Stored guarded σ id files disk) (hacts : Acts config id σ σ')
    (hlog : σ'.log id = σ.log id) {term : Nat} {vote : NodeID} (hterm : term = σ'.term id)
    (hvote : vote = (σ'.vote id (σ'.term id)).getD []) :
    Stored guarded σ' id files { disk with hardState := ⟨term, vote⟩ } where
  term_eq := hterm
  vote_eq := hvote
  base_le := h.base_le
  commit_le := by rw [hlog]; exact h.commit_le
  baseTerm := by rw [hlog]; exact h.baseTerm
  log_eq := by rw [hlog]; exact h.log_eq
  filed := h.filed
  known hguarded := by
    rw [hlog]
    exact ((h.known hguarded).extend hacts.history).mono (hacts.history.term_le id)

theorem Stored.lastIndex (h : Stored guarded σ id files disk) :
    Disk.lastIndex disk = (σ.log id).length := by
  rw [Disk.lastIndex, h.log_eq, List.length_drop]
  have := h.base_le.trans h.commit_le
  omega

theorem AtRest.hardened (h : AtRest config σ id files disk n) (hlog : σ'.log id = σ.log id)
    (hbody : body { n₁ with term := n.term, votedFor := n.votedFor } = body n)
    (hterm : n₁.term = σ'.term id) :
    AtRest config σ' id files { disk with hardState := ⟨n₁.term, n₁.votedFor⟩ }
      (hardened n₁) := by
  have hrest := h.of_body hbody
  exact
    { hrest with
      holds := by
        rw [hlog]
        exact hrest.holds.of_parts rfl
      term_eq := hterm
      vote_eq := rfl
      durableTerm := rfl
      durableVote := rfl }

theorem Achieves.hardState (before after : List Action) (hrefl : Acts config id σ σ)
    (hstored : Stored guarded σ id files disk) (hrest : AtRest config σ id files disk n)
    (hstep : n.step event =
      ((n₁.persistHardState after).1, before ++ (n₁.persistHardState after).2))
    (hbody : body { n₁ with term := n.term, votedFor := n.votedFor } = body n)
    (hbefore : ∀ action ∈ before, Plain action) (hafter : ∀ action ∈ after, Plain action)
    (hacts : Acts config id σ σ') (hlog : σ'.log id = σ.log id) (hterm : n₁.term = σ'.term id)
    (hvote : n₁.votedFor = (σ'.vote id (σ'.term id)).getD [])
    (hsends : ∀ action ∈ before ++ after, Announces config guarded σ' ρ id action)
    (hrole : n₁.role ≠ .leader)
    (hcampaigns : n₁.role = .candidate → Campaigns config σ' id n₁)
    (hidle : n₁.pendingReads = []) :
    Achieves config guarded id files ρ event σ disk n := by
  have hplain : ∀ action ∈ before ++ after, Plain action := by
    intro action hmem
    rcases List.mem_append.mp hmem with hmem | hmem
    · exact hbefore action hmem
    · exact hafter action hmem
  have happlied : n₁.lastApplied = n.lastApplied := (congrArg Node.lastApplied hbody :)
  have hpending : n₁.pendingHardState = fun _ => none :=
    (congrArg Node.pendingHardState hbody :).trans hrest.noHardState
  have hstored' := hstored.hardState hacts hlog hterm hvote
  refine ⟨σ, ⟨hrefl, hstored, fun _ hrole' => ?_, fun _ _ hrole' => ?_⟩, ?_⟩
  · rw [hstep] at hrole'
    exact absurd hrole' hrole
  · rw [hstep] at hrole'
    exact absurd hrole' hrole
  have hdrain := drain_hardState 2 n₁ after [] disk [] before hpending
  simp only [List.append_nil, List.nil_append] at hdrain
  rw [Runtime.step, hstep, drain_quiet _ _ (quiet_of_plain hbefore)]
  simp only [List.nil_append]
  rw [hdrain, drain_all_quiet _ _ (quiet_of_plain hafter)]
  refine Finishes.after (.single hstored hrefl (fun _ => rfl) rfl hacts hstored')
    (Finishes.completed (Acts.refl hacts.valid hacts.tidy) ?_)
  exact
    { stored := hstored'
      rest := hrest.hardened hlog hbody hterm
      campaigns := fun hcandidate => by
        obtain ⟨hvotes, hown, hcand, hfresh⟩ := hcampaigns hcandidate
        exact ⟨hvotes, hown, hcand, hfresh⟩
      leads := fun hleader => absurd hleader hrole
      replicates := fun _ hleader => absurd hleader hrole
      idle := fun _ => hidle
      elected := fun _ hleader => absurd hleader hrole
      sends := hsends
      walk := by
        simp only [Runtime.hardened, happlied]
        exact Walk.plain hplain _
      base_mono := le_rfl
      commit_mono := le_rfl
      keeps := .inr (hlog ▸ List.take_prefix _ _)
      continues := fun _ hleader => absurd hleader hrole
      applies := fun _ _ entry hmem => False.elim (hplain _ hmem)
      accepts := fun _ _ hmem => False.elim (hplain _ hmem)
      begun := fun read hread => by
        simp only [Runtime.hardened, hidle] at hread
        simp at hread
      restores := fun _ _ hmem => False.elim (hplain _ hmem) }

end Events

end QuorumKV.Cluster
