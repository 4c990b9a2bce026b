import QuorumKV.Cluster.Acceptance
import QuorumKV.Cluster.Carrying
import QuorumKV.Cluster.Commitment
import QuorumKV.Cluster.Installation
import QuorumKV.Cluster.Proposal

/-!
# One turn of a loop

What a turn of `runRaft` leaves behind: its server, the messages it sent, and
what it showed.  The event is prepared, the runtime steps, and the actions are
carried out; a crash can cut the step short at any write.
-/

namespace QuorumKV.Cluster

open Raft QuorumKV.Runtime Session Foundation

/-! ## Every event of the runtime -/

/-- What a step relies on: its message is true, and its read has a round. -/
def Grounded (config : Config) (guarded : Prop) (σ : Ideal) (ρ : Rounds) (id : NodeID)
    (files : List Snapshot.State) (n : Node) : Event → Prop
  | .voteRequest r => TrueVoteRequest σ r
  | .voteResponse r => TrueVoteResponse config σ id r
  | .appendEntries r => TrueAppend guarded σ ρ id r
  | .appendEntriesResponse r =>
      TrueResponse config guarded σ ρ id r ∧ (guarded → ¬ staleRejection n r)
  | .installSnapshot r =>
      TrueInstall config guarded σ id r ∧
        (r.success = true → r.done = true → Filed files r.snapshotIndex r.snapshotTerm)
  | .installSnapshotResponse r => TrueSnapshotResponse config guarded σ id r
  | .confirmRead readID =>
      guarded → n.role = .leader → n.readReady = true → readID ≠ 0 ∧
        ∃ round, ρ n.term readID = some round ∧ id ∈ round.reached
  | .hardStatePersisted _ | .logEntriesPersisted _ | .commitIndexPersisted _
  | .snapshotPersisted _ | .recoverCommitted | .snapshotCompacted .. => False
  | _ => True

section Steps

variable {config : Config} {guarded prompt : Prop} {σ σ' : Ideal} {ρ : Rounds} {id : NodeID}
  {files files' : List Snapshot.State} {disk disk' : Disk} {n n' : Node} {event : Event}

theorem Poised.achieves (h : Poised config guarded σ ρ id files disk n)
    (hgrounded : Grounded config guarded σ ρ id files n event) :
    Achieves config guarded id files ρ event σ disk n := by
  cases event with
  | electionTimeout => exact h.electionTimeout
  | heartbeatTimeout => exact h.heartbeatTimeout
  | checkQuorumTimeout => exact h.checkQuorumTimeout
  | hardStatePersisted _ | logEntriesPersisted _ | commitIndexPersisted _
  | snapshotPersisted _ | recoverCommitted | snapshotCompacted _ _ => exact hgrounded.elim
  | proposeSession proposal => exact h.proposeSession proposal
  | proposeSet proposal => exact h.proposeSet proposal
  | proposeDelete proposal => exact h.proposeDelete proposal
  | confirmRead readID => exact h.confirmRead hgrounded
  | preVoteRequest r => exact h.preVoteRequest r
  | preVoteResponse r => exact h.preVoteResponse r
  | voteRequest r => exact h.voteRequest hgrounded
  | voteResponse r => exact h.voteResponse hgrounded
  | appendEntries r => exact h.appendEntries hgrounded
  | appendEntriesResponse r => exact h.appendEntriesResponse hgrounded.1 hgrounded.2
  | appendEntriesFailed dest requestID => exact h.appendEntriesFailed dest requestID
  | installSnapshot r => exact h.installSnapshot hgrounded.1 hgrounded.2
  | installSnapshotResponse r => exact h.installSnapshotResponse hgrounded

/-! ## Commit indexes on disk -/

theorem save_commit {write : Write} (h : Disk.save disk write = some disk') :
    disk.commitIndex ≤ disk'.commitIndex := by
  cases write with
  | hardState state =>
      cases h
      exact le_rfl
  | truncation _ | entries _ =>
      simp only [Disk.save] at h
      split at h
      · simp at h
      · cases h
        exact le_rfl
  | commitIndex index =>
      simp only [Disk.save] at h
      split at h
      · simp at h
      next hbounds =>
        cases h
        exact Nat.le_of_not_lt fun hlt => hbounds (.inl hlt)
  | snapshot index term retainSuffix =>
      simp only [Disk.save] at h
      split at h
      · simp at h
      · cases h
        exact le_max_left _ _

theorem interrupt_commit (disk : Disk) (kept : Nat) (write : Write) :
    (Disk.interrupt disk kept write).commitIndex = disk.commitIndex := by
  cases write <;> rfl

theorem crashed_commit (disk : Disk) (kept calls : Nat) (writes : List Write) :
    disk.commitIndex ≤ (crashed disk kept calls writes).commitIndex := by
  induction writes generalizing disk calls with
  | nil => simp [Runtime.crashed]
  | cons write writes ih =>
      cases calls with
      | zero => exact (interrupt_commit disk kept write).ge
      | succ calls =>
          simp only [Runtime.crashed]
          split
          · exact le_rfl
          next next hsaved => exact (save_commit hsaved).trans (ih next calls)

theorem Persists.commit_le {writes : List Write}
    (h : Persists config guarded id files σ disk writes σ' disk') :
    disk.commitIndex ≤ disk'.commitIndex := by
  induction h with
  | done => exact le_rfl
  | write interrupted saved acts stored rest ih => exact (save_commit saved).trans ih

/-! ## More files -/

theorem Filed.mono {index term : Nat} (h : Filed files index term)
    (hfiles : ∀ file ∈ files, file ∈ files') : Filed files' index term := by
  obtain ⟨file, hmem, hsame⟩ := h
  exact ⟨file, hfiles file hmem, hsame⟩

theorem Stored.more (h : Stored guarded σ id files disk)
    (hfiles : ∀ file ∈ files, file ∈ files') : Stored guarded σ id files' disk :=
  { h with filed := fun hpos => (h.filed hpos).mono hfiles }

theorem AtRest.more (h : AtRest config σ id files disk n)
    (hfiles : ∀ file ∈ files, file ∈ files') : AtRest config σ id files' disk n :=
  { h with filed := fun hpos => (h.filed hpos).mono hfiles }

end Steps

/-! ## What a turn leaves behind -/

structure Leaves (config : Config) (guarded prompt : Prop) (σ : Ideal) (ρ : Rounds)
    (trace : List Observation) (id : NodeID) (turn : Turn) : Prop where
  runs : Runs config guarded prompt σ ρ (trace ++ turn.observed) id turn.server
  sent : ∀ packet ∈ turn.sent, Truthful config guarded σ ρ packet.dest packet.message
  elected : ∀ node term, .becameLeader node term ∈ turn.observed → σ.lead term = some node
  observed : guarded → ∀ observation ∈ turn.observed,
    TrueObservation config prompt σ trace observation
  covered : guarded → ∀ node waiter result, .answered node waiter result ∈ turn.observed →
    node = id ∧ (result.rejected = false → ∃ p, turn.server.process = some p ∧
      Answers config σ.chosen p.core.lastApplied waiter.request result)

section Completing

variable {config : Config} {guarded prompt : Prop} {σ σ' : Ideal} {ρ : Rounds}
  {trace : List Observation} {id : NodeID} {files : List Snapshot.State} {disk disk' : Disk}
  {p : Process} {n' : Node} {event : Event} {waiter : Option Waiter} {emitted : List Action}

theorem Serves.poised (h : Serves config guarded prompt σ ρ trace id disk files p)
    (hvalid : σ.Valid LogEntry.term config.Quorum) (htidy : Tidy config σ)
    (hrounds : guarded → TrueRounds config σ ρ) (hstored : Stored guarded σ id files disk) :
    Poised config guarded σ ρ id files disk p.core where
  member := h.member
  valid := hvalid
  tidy := htidy
  rounds := hrounds
  stored := hstored
  rest := h.rest
  campaigns := h.campaigns
  leads := h.leads
  replicates := h.replicates
  idle hrole := (h.idle hrole).1

theorem Serves.applied_le_chosen (h : Serves config guarded prompt σ ρ trace id disk files p)
    (hvalid : σ.Valid LogEntry.term config.Quorum) (hstored : Stored guarded σ id files disk)
    (hguarded : guarded) : p.core.lastApplied ≤ σ.chosen.length :=
  (h.rest.applied_le.trans h.rest.commit_eq.le).trans
    (hstored.commit_le_chosen hvalid.agreed hguarded)

def Asks (trace : List Observation) (event : Event) (waiter : Option Waiter) : Prop :=
  ∀ w, waiter = some w → requested event = some w.request ∧ w.since = trace.length

section Step

variable (h : Serves config guarded prompt σ ρ trace id disk files p)
  (hvalid : σ.Valid LogEntry.term config.Quorum) (hstored : Stored guarded σ id files disk)
  (hacts : Acts config id σ σ')
  (hcompletes : Completes config guarded id files ρ event σ disk p.core σ' disk' n' emitted)

include h hvalid hacts hcompletes

theorem Serves.carried (hstored : Stored guarded σ id files disk) :
    Carried config guarded prompt σ' ρ trace id p.core n' p p.core.lastApplied
      { process := { p with core := n' }, waiter := waiter } := by
  have hwaits : guarded → n'.role = .leader → ∀ index request,
      p.core.role = .leader → Waits σ id p.core.term p.core.lastApplied index request →
      Waits σ' id n'.term p.core.lastApplied index request := by
    intro _ hrole index request hleader hwaits
    obtain ⟨hterm, hfront⟩ := hcompletes.continues hleader hrole
    rw [hterm]
    exact hwaits.front hfront
  have hpending : ∀ waiting ∈ p.pending, p.core.role = .leader := by
    intro waiting hmem
    by_contra hrole
    simp [(h.idle hrole).2.1] at hmem
  exact
    { core := rfl
      capture := rfl
      incoming := rfl
      ready := fun _ hfile => hfile
      readsBegun := rfl
      idle := fun hrole => (h.idle hrole).2
      arrived := h.arrived
      sessions := fun hguarded => by
        rw [take_eq_take hacts.history.chosen_le (h.applied_le_chosen hvalid hstored hguarded)]
        exact h.sessions hguarded
      inside := fun hguarded => (h.applied_le_chosen hvalid hstored hguarded).trans
        hacts.history.chosen_le.length_le
      waiting := fun hguarded hrole index waiter hmem =>
        hwaits hguarded hrole index _ (hpending _ hmem) (h.waiting hguarded index waiter hmem)
      awaiting := fun hguarded hprompt hrole index waiter hmem => by
        rw [(hcompletes.continues (hpending _ hmem) hrole).1]
        simpa using (h.awaiting hguarded hprompt index waiter hmem).mono hacts []
          (h.arrived index waiter hmem)
      inFlight := fun hguarded hrole session sequence index hflight => by
        refine hwaits hguarded hrole index _ ?_ (h.inFlight hguarded session sequence index hflight)
        by_contra hfollower
        simp [(h.idle hfollower).2.2] at hflight
      sent := by simp
      observed := by simp
      covered := by simp
      elected := by simp }

theorem Serves.reliable (hcovers : guarded → Covers σ trace σ.chosen.length)
    (howned : ∀ file ∈ files, Owned config guarded σ id file)
    (hasks : Asks trace event waiter) :
    Reliable config guarded prompt σ' ρ trace id files p.core n' p waiter emitted where
  numbered := hacts.tidy.log hacts.valid id
  committed hguarded := by
    rw [hcompletes.rest.commit_eq]
    exact hcompletes.stored.commit_chosen hacts.valid.agreed hguarded
  owned file hfile := (howned file hfile).mono hacts
  ready hguarded file hfile := ((howned file (h.ready file hfile)).mono hacts).2 hguarded
  sends := hcompletes.sends
  applies := hcompletes.applies
  covers hguarded hrole index since hpos hle hown hawaits := by
    rw [hcompletes.rest.term_eq] at hown hawaits
    rw [hcompletes.rest.commit_eq] at hle
    exact hawaits.covers hacts.valid hpos
      (hcompletes.stored.own_committed hacts.valid hguarded hown hpos hle)
  restores index term hmem := by
    obtain ⟨-, hrole, -, hnone, -⟩ := hcompletes.restores index term hmem
    exact ⟨hrole, hnone⟩
  accepts proposalID index hmem := by
    obtain ⟨hrole, hrole', hindex, hwaits⟩ := hcompletes.accepts proposalID index hmem
    refine ⟨hrole, hrole', fun w hw => ?_⟩
    obtain ⟨hrequest, hsince⟩ := hasks w hw
    refine ⟨hsince.le, fun hguarded => ⟨hwaits _ hrequest, fun _ => ?_⟩⟩
    obtain ⟨hlead, hholds, -⟩ := h.leads hrole
    rw [(hcompletes.continues hrole hrole').1, hindex, hsince]
    simpa using (awaits_proposal hvalid hlead hholds (hcovers hguarded)).mono hacts [] le_rfl
  confirms hguarded readID applied hconfirms since hbegun := by
    obtain ⟨hmem, round, hround, hfloor⟩ := hconfirms
    obtain ⟨read, hread, rfl⟩ := List.mem_map.mp hmem
    exact ⟨h.stamped _ _ hbegun,
      ((h.since hguarded read hread since hbegun round hround).le hfloor).mono
        hacts.history.chosen_le⟩

end Step

theorem Captures.completes {n : Node} {capture : Capture}
    (h : Captures config guarded σ id disk files capture)
    (hstored : Stored guarded σ id files disk) (hacts : Acts config id σ σ')
    (hcompletes : Completes config guarded id files ρ event σ disk n σ' disk' n' emitted) :
    Captures config guarded σ' id disk' files capture where
  position := by
    rcases h.position with hle | ⟨hle, hterm⟩
    · exact .inl (hle.trans hcompletes.base_mono)
    · rcases hcompletes.keeps with hpassed | hfront
      · exact .inl (hle.trans hpassed)
      · refine .inr ⟨hle.trans hcompletes.commit_mono, ?_⟩
        have hinside : capture.state.includedIndex ≤
            ((σ.log id).take disk.commitIndex).length := by
          rw [List.length_take]
          exact le_min hle (hle.trans hstored.commit_le)
        rw [hterm, termAt_front hfront hinside, termAt_take hle]
  saved := h.saved
  owned := h.owned.mono hacts

def Begun (guarded : Prop) (σ : Ideal) (ρ : Rounds) (trace : List Observation) (p : Process) :
    Event → Prop
  | .confirmRead readID => readID ∈ p.readsBegun.map Prod.fst ∧
      (guarded → p.core.role = .leader → ∀ since, (readID, since) ∈ p.readsBegun →
        ∀ round, ρ p.core.term readID = some round → Covers σ (trace.take since) round.floor)
  | _ => True

theorem Serves.completed (h : Serves config guarded prompt σ ρ trace id disk files p)
    (hrounds : guarded → TrueRounds config σ ρ) (hstored : Stored guarded σ id files disk)
    (hacts : Acts config id σ σ')
    (hcompletes : Completes config guarded id files ρ event σ disk p.core σ' disk' n' emitted)
    (hbegun : Begun guarded σ ρ trace p event) {state : LoopState}
    (hcarried : Carried config guarded prompt σ' ρ trace id p.core n' p n'.lastApplied state)
    (hidle : n'.role ≠ .leader → state.process.pending = [] ∧
      ∀ session, state.process.inFlightMutations session = none) (shown : List Observation) :
    Serves config guarded prompt σ' ρ (trace ++ shown) id disk' files state.process := by
  have hrole : ∀ waiting ∈ state.process.pending, n'.role = .leader := by
    intro waiting hmem
    by_contra hrole
    simp [(hidle hrole).1] at hmem
  have hreads : ∀ read ∈ n'.pendingReads, n'.role = .leader ∧ p.core.role = .leader := by
    intro read hread
    refine ⟨?_, ?_⟩
    · by_contra hrole
      simp [hcompletes.idle (.inl hrole)] at hread
    · by_contra hrole
      simp [hcompletes.idle (.inr hrole)] at hread
  refine
    { member := h.member
      rest := ?_
      campaigns := ?_
      leads := ?_
      replicates := ?_
      idle := ?_
      sessions := ?_
      waiting := fun hguarded index waiter hmem => ?_
      awaiting := fun hguarded hprompt index waiter hmem => ?_
      inFlight := fun hguarded session sequence index hflight => ?_
      incoming := fun hguarded receiving hreceiving => ?_
      ready := fun file hfile => h.ready file (hcarried.ready file hfile)
      capture := fun capture hcapture => ?_
      begun := fun read hread => ?_
      asked := fun hguarded hleader readID hround => ?_
      stamped := fun readID since hmem => ?_
      arrived := fun index waiter hmem => ?_
      since := fun hguarded read hread since hmem round hround => ?_ }
  all_goals try rw [hcarried.core]
  · exact hcompletes.rest
  · exact hcompletes.campaigns
  · exact hcompletes.leads
  · exact hcompletes.replicates
  · exact fun hrole => ⟨hcompletes.idle (.inl hrole), hidle hrole⟩
  · exact hcarried.sessions
  · exact hcarried.waiting hguarded (hrole _ hmem) index waiter hmem
  · have hrefl : Acts config id σ' σ' := Acts.refl hacts.valid hacts.tidy
    exact (hcarried.awaiting hguarded hprompt (hrole _ hmem) index waiter hmem).mono hrefl shown
      (hcarried.arrived index waiter hmem)
  · refine hcarried.inFlight hguarded ?_ session sequence index hflight
    by_contra hrole
    simp [(hidle hrole).2] at hflight
  · rw [hcarried.incoming] at hreceiving
    exact (h.incoming hguarded receiving hreceiving).mono hacts.history.chosen_le
  · rw [hcarried.capture] at hcapture
    exact (h.capture capture hcapture).completes hstored hacts hcompletes
  · rw [hcarried.core] at hread
    rw [hcarried.readsBegun]
    rcases hcompletes.begun read hread with hold | hnew
    · obtain ⟨old, hold, heq⟩ := List.mem_map.mp hold
      rw [← heq]
      exact h.begun old hold
    · rw [hnew] at hbegun
      exact hbegun.1
  · rw [hcarried.core] at hleader hround
    rw [hcarried.readsBegun]
    by_cases hwas : p.core.role = .leader
    · rw [(hcompletes.continues hwas hleader).1] at hround
      exact h.asked hguarded hwas readID hround
    · obtain ⟨round, hround⟩ := Option.ne_none_iff_exists'.mp hround
      exact absurd (hcompletes.elected hwas hleader) (hrounds hguarded _ _ _ hround).1
  · rw [hcarried.readsBegun] at hmem
    rw [List.length_append]
    exact (h.stamped readID since hmem).trans (Nat.le_add_right _ _)
  · rw [List.length_append]
    exact (hcarried.arrived index waiter hmem).trans (Nat.le_add_right _ _)
  · rw [hcarried.core] at hread hround
    rw [hcarried.readsBegun] at hmem
    obtain ⟨hleader, hwas⟩ := hreads read hread
    rw [(hcompletes.continues hwas hleader).1] at hround
    rw [List.take_append_of_le_length (h.stamped _ _ hmem)]
    refine Covers.mono ?_ hacts.history.chosen_le
    rcases hcompletes.begun read hread with hold | hnew
    · obtain ⟨old, hold, heq⟩ := List.mem_map.mp hold
      rw [← heq] at hmem hround
      exact h.since hguarded old hold since hmem round hround
    · rw [hnew] at hbegun
      exact hbegun.2 hguarded hwas since hmem round hround

/-! ## The step of a turn -/

structure Tells (guarded : Prop) (σ : Ideal) (id : NodeID) (core : Node) (event : Event) :
    Prop where
  elected : core.role ≠ .leader → (core.step event).1.role = .leader →
    σ.lead (core.step event).1.term = some id
  commits : guarded → core.role = .leader → (core.step event).1.role = .leader →
    (core.step event).1.commitIndex ≤
      max core.commitIndex (min core.lastLogIndex (σ.lcommit core.term))

theorem Begins.tells {n : Node} {σ₀ : Ideal}
    (h : Begins config guarded id files event σ disk n σ₀) (hacts : Acts config id σ₀ σ') :
    Tells guarded σ' id n event where
  elected hrole hrole' := hacts.history.lead_eq _ _ (h.elected hrole hrole')
  commits hguarded hrole hrole' := (h.commits hguarded hrole hrole').trans
    (max_le_max le_rfl (min_le_min le_rfl (hacts.history.lcommit_le _)))

theorem Tells.entered {core : Node} (h : Tells guarded σ id core event) {node : NodeID}
    {term : Nat} (hmem : .becameLeader node term ∈ entered id core event) :
    σ.lead term = some node := by
  unfold Runtime.entered at hmem
  split at hmem
  next hroles =>
    simp only [List.mem_singleton, Observation.becameLeader.injEq] at hmem
    obtain ⟨rfl, rfl⟩ := hmem
    exact h.elected hroles.1 hroles.2
  · simp at hmem

theorem mem_entered {core : Node} {observation : Observation}
    (hmem : observation ∈ entered id core event) :
    observation = .becameLeader id (core.step event).1.term := by
  unfold Runtime.entered at hmem
  split at hmem
  · exact List.mem_singleton.mp hmem
  · simp at hmem

theorem Leaves.ended {server : Server} {core : Node} (hprocess : server.process = none)
    (hstored : Stored guarded σ id server.files server.disk)
    (howned : ∀ file ∈ server.files, Owned config guarded σ id file)
    (htells : Tells guarded σ id core event) :
    Leaves config guarded prompt σ ρ trace id
      { server := server, observed := entered id core event } where
  runs := ⟨hstored, howned, fun p hp => by simp [hprocess] at hp⟩
  sent := by simp
  elected _ _ hmem := htells.entered hmem
  observed _ observation hmem := by
    rw [mem_entered hmem]
    trivial
  covered _ node waiter result hmem := by
    have := mem_entered hmem
    simp at this

theorem Persists.stored {writes : List Write}
    (h : Persists config guarded id files σ disk writes σ' disk')
    (hstored : Stored guarded σ id files disk) : Stored guarded σ' id files disk' := by
  induction h with
  | done => exact hstored
  | write interrupted saved acts stored rest ih => exact ih stored

end Completing

structure Prompted (config : Config) (guarded prompt : Prop) (σ : Ideal) (ρ : Rounds)
    (trace : List Observation) (id : NodeID) (disk : Disk) (files : List Snapshot.State)
    (p : Process) (event : Event) (waiter : Option Waiter) : Prop where
  valid : σ.Valid LogEntry.term config.Quorum
  tidy : Tidy config σ
  rounds : guarded → TrueRounds config σ ρ
  acknowledged : guarded → Covers σ trace σ.chosen.length
  stored : Stored guarded σ id files disk
  owned : ∀ file ∈ files, Owned config guarded σ id file
  serves : Serves config guarded prompt σ ρ trace id disk files p
  grounded : Grounded config guarded σ ρ id files p.core event
  begun : Begun guarded σ ρ trace p event
  asks : Asks trace event waiter

section Turning

variable {config : Config} {guarded prompt : Prop} {σ : Ideal} {ρ : Rounds}
  {trace : List Observation} {id : NodeID} {server : Server} {p p₀ : Process} {input : Input}
  {saved : List Snapshot.State} {event : Event} {waiter : Option Waiter} {turn : Turn}

theorem Prompted.achieves {disk : Disk} {files : List Snapshot.State}
    (h : Prompted config guarded prompt σ ρ trace id disk files p event waiter) :
    Achieves config guarded id files ρ event σ disk p.core :=
  (h.serves.poised h.valid h.tidy h.rounds h.stored).achieves h.grounded

theorem Prompted.completed {σ' : Ideal} {disk disk' : Disk} {files : List Snapshot.State}
    {n' : Node} {emitted : List Action} {state : LoopState}
    (h : Prompted config guarded prompt σ ρ trace id disk files p event waiter)
    (hacts : Acts config id σ σ') (htells : Tells guarded σ' id p.core event)
    (hcompletes : Completes config guarded id files ρ event σ disk p.core σ' disk' n' emitted)
    (hcarried : carryOutAll config id files { process := { p with core := n' }, waiter := waiter }
      emitted = some state) :
    Leaves config guarded prompt σ' ρ trace id
      { server :=
          { disk := disk'
            files := files
            process := (afterActions id (p.core.role = .leader) state).process }
        sent := (afterActions id (p.core.role = .leader) state).sent
        observed := entered id p.core event ++
          (afterActions id (p.core.role = .leader) state).observed } := by
  have hreliable :=
    h.serves.reliable h.valid hacts hcompletes h.acknowledged h.owned h.asks
  have hall := hreliable.carryOutAll (fun _ hmem => hmem)
    (h.serves.carried h.valid hacts hcompletes h.stored) rfl hcompletes.walk hcarried
  have hafter := hall.afterActions
  exact
    { runs :=
        { stored := hcompletes.stored
          owned := hreliable.owned
          serves := by
            rintro _ ⟨⟩
            exact h.serves.completed h.rounds h.stored hacts hcompletes h.begun hafter
              hall.afterActions_idle _ }
      sent := hafter.sent
      elected := fun node term hmem => by
        rcases List.mem_append.mp hmem with hmem | hmem
        · exact htells.entered hmem
        · exact absurd hmem (hafter.elected node term)
      observed := fun hguarded observation hmem => by
        rcases List.mem_append.mp hmem with hmem | hmem
        · rw [mem_entered hmem]
          trivial
        · exact hafter.observed hguarded observation hmem
      covered := fun hguarded node waiter result hmem => by
        rcases List.mem_append.mp hmem with hmem | hmem
        · have := mem_entered hmem
          simp at this
        · obtain ⟨rfl, hanswers⟩ := hafter.covered hguarded node waiter result hmem
          refine ⟨rfl, fun hrejected => ⟨_, rfl, ?_⟩⟩
          rw [hafter.core]
          exact hanswers hrejected }

theorem Prompted.serve (hprocess : server.process = some p₀)
    (hprepare : prepare config id trace.length p₀ input = some (.stepped p saved event waiter))
    (h : Prompted config guarded prompt σ ρ trace id server.disk (saved ++ server.files) p event
      waiter)
    (hserve : server.serve config id trace.length input = some turn) :
    ∃ σ', Acts config id σ σ' ∧ Tells guarded σ' id p.core event ∧
      server.disk.commitIndex ≤ turn.server.disk.commitIndex ∧
      Leaves config guarded prompt σ' ρ trace id turn := by
  obtain ⟨σ₀, hbegins, hfinishes⟩ := h.achieves
  have hrefl : Acts config id σ₀ σ₀ := Acts.refl hbegins.acts.valid hbegins.acts.tidy
  simp only [Server.serve, hprocess, hprepare] at hserve
  cases houtcome : Runtime.step p.core server.disk event with
  | exhausted => simp [houtcome] at hserve
  | refused progress =>
      rw [houtcome] at hfinishes
      obtain ⟨-, later, σ₂, -, hpersists⟩ := hfinishes
      simp only [houtcome, Option.some.injEq] at hserve
      subst hserve
      have hacts := hbegins.acts.trans (hpersists.acts hrefl)
      have htells := hbegins.tells (hpersists.acts hrefl)
      exact ⟨σ₂, hacts, htells, hpersists.commit_le, Leaves.ended rfl
        (hpersists.stored hbegins.stored) (fun file hfile => (h.owned file hfile).mono hacts) htells⟩
  | completed progress =>
      rw [houtcome] at hfinishes
      obtain ⟨later, σ₂, σ₃, -, hpersists, hacts', hcompletes⟩ := hfinishes
      have hlater := (hpersists.acts hrefl).trans hacts'
      have hacts := hbegins.acts.trans hlater
      have htells := hbegins.tells hlater
      have hcommit := hcompletes.commit_mono
      simp only [houtcome] at hserve
      split at hserve
      · cases hserve
        exact ⟨σ₃, hacts, htells, hcommit, Leaves.ended rfl hcompletes.stored
          (fun file hfile => (h.owned file hfile).mono hacts) htells⟩
      next state hcarried =>
        cases hserve
        exact ⟨σ₃, hacts, htells, hcommit, h.completed hacts htells hcompletes hcarried⟩

theorem Prompted.crashDuring {calls kept : Nat} (hprocess : server.process = some p₀)
    (hprepare : prepare config id trace.length p₀ input = some (.stepped p saved event waiter))
    (h : Prompted config guarded prompt σ ρ trace id server.disk (saved ++ server.files) p event
      waiter)
    (hcrash : server.crashDuring config id trace.length input calls kept = some turn) :
    ∃ σ', Acts config id σ σ' ∧ Tells guarded σ' id p.core event ∧
      server.disk.commitIndex ≤ turn.server.disk.commitIndex ∧
      Leaves config guarded prompt σ' ρ trace id turn := by
  obtain ⟨σ₀, hbegins, hfinishes⟩ := h.achieves
  have hrefl : Acts config id σ₀ σ₀ := Acts.refl hbegins.acts.valid hbegins.acts.tidy
  simp only [Server.crashDuring, hprocess, hprepare, Option.some.injEq] at hcrash
  have hexplained : ∃ σ₁, Acts config id σ₀ σ₁ ∧ Stored guarded σ₁ id (saved ++ server.files)
      (crashed server.disk kept calls (Runtime.step p.core server.disk event).writes) := by
    cases houtcome : Runtime.step p.core server.disk event with
    | exhausted =>
        refine ⟨σ₀, hrefl, ?_⟩
        simpa only [Outcome.writes, Runtime.crashed] using hbegins.stored
    | refused progress =>
        rw [houtcome] at hfinishes
        obtain ⟨-, later, σ₂, hwrites, hpersists⟩ := hfinishes
        simp only [Outcome.writes, hwrites, List.nil_append]
        exact hpersists.crashed hrefl hbegins.stored kept calls
    | completed progress =>
        rw [houtcome] at hfinishes
        obtain ⟨later, σ₂, σ₃, hwrites, hpersists, -⟩ := hfinishes
        simp only [Outcome.writes, hwrites, List.nil_append]
        exact hpersists.crashed hrefl hbegins.stored kept calls
  obtain ⟨σ₁, hacts₁, hstored₁⟩ := hexplained
  subst hcrash
  have hacts := hbegins.acts.trans hacts₁
  have htells := hbegins.tells hacts₁
  exact ⟨σ₁, hacts, htells, crashed_commit _ _ _ _, Leaves.ended rfl hstored₁
    (fun file hfile => (h.owned file hfile).mono hacts) htells⟩

end Turning

end QuorumKV.Cluster
