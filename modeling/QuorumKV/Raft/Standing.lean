import QuorumKV.Raft.Step

/-!
# The standing of a core

A core's role and term, whom it follows, and which peers it heard from.  Most of
what a step does leaves them alone; `Shifts` lists every way in which one step
can change them.
-/

namespace QuorumKV.Raft

structure Standing where
  peers : List NodeID
  role : Role
  term : Nat
  leaderID : NodeID
  recentLeaderContact : Bool
  activePeers : Finset NodeID

def Event.leadership : Event → Option (NodeID × Nat)
  | .appendEntries request => some (request.sender, request.term)
  | .installSnapshot request => some (request.sender, request.term)
  | _ => none

namespace Node

def standing (n : Node) : Standing :=
  { peers := n.peers
    role := n.role
    term := n.term
    leaderID := n.leaderID
    recentLeaderContact := n.recentLeaderContact
    activePeers := n.activePeers }

def Outdated (n : Node) (response : AppendEntriesResponse) : Prop :=
  (n.appendInFlight response.sender).requestID ≠ 0 ∧ response.requestID ≠ 0 ∧
    response.requestID ≠ (n.appendInFlight response.sender).requestID

instance (n : Node) (response : AppendEntriesResponse) : Decidable (n.Outdated response) :=
  inferInstanceAs (Decidable (_ ∧ _))

def contact (n : Node) : Event → Option NodeID
  | .appendEntriesResponse response =>
      if n.role = .leader ∧ response.term = n.term ∧ ¬ n.Outdated response then
        some response.sender
      else none
  | _ => none

inductive Shifts (n : Node) (event : Event) : Standing → Prop where
  | stays (quiet : n.contact event = none)
      (unchecked : event = .checkQuorumTimeout → n.role ≠ .leader)
      (waiting : event = .electionTimeout → n.role = .leader)
      (ignored : ∀ leader term, event.leadership = some (leader, term) → term < n.term) :
      Shifts n event n.standing
  | hears {peer : NodeID} (heard : n.contact event = some peer) :
      Shifts n event { n.standing with activePeers := insert peer n.activePeers }
  | recognizes {leader : NodeID} {term : Nat} (led : event.leadership = some (leader, term))
      (newer : n.term ≤ term) :
      Shifts n event
        { peers := n.peers
          role := .follower
          term := term
          leaderID := leader
          recentLeaderContact := true
          activePeers := if n.term < term then ∅ else n.activePeers }
  | stepsDown {term : Nat} (newer : n.term < term)
      (heard : event.leadership = none) :
      Shifts n event
        { peers := n.peers
          role := .follower
          term := term
          leaderID := []
          recentLeaderContact := false
          activePeers := ∅ }
  | isolated (checked : event = .checkQuorumTimeout) (leads : n.role = .leader)
      (few : n.activePeers.card + 1 < n.quorum) :
      Shifts n event
        { peers := n.peers
          role := .follower
          term := n.term
          leaderID := []
          recentLeaderContact := false
          activePeers := ∅ }
  | sustained (checked : event = .checkQuorumTimeout) (leads : n.role = .leader)
      (enough : n.quorum ≤ n.activePeers.card + 1) :
      Shifts n event { n.standing with activePeers := ∅ }
  | probes (expired : event = .electionTimeout) (idle : n.role ≠ .leader) :
      Shifts n event
        { n.standing with
          role := .preCandidate
          leaderID := []
          recentLeaderContact := false }
  | campaignsAlone (expired : event = .electionTimeout) (idle : n.role ≠ .leader) :
      Shifts n event
        { n.standing with
          role := .candidate
          term := n.term + 1
          leaderID := []
          recentLeaderContact := false }
  | campaigns {response : PreVoteResponse} (granted : event = .preVoteResponse response)
      (probed : n.role = .preCandidate) :
      Shifts n event
        { n.standing with
          role := .candidate
          term := n.term + 1
          leaderID := [] }
  | wins {response : VoteResponse} (granted : event = .voteResponse response)
      (campaigned : n.role = .candidate) :
      Shifts n event
        { n.standing with
          role := .leader
          leaderID := n.id
          activePeers := ∅ }

/-! ## What leaves the standing alone -/

variable {n : Node}

@[simp] theorem standing_persistHardState (after : List Action) :
    (n.persistHardState after).1.standing = n.standing := rfl

@[simp] theorem standing_persistCommit (after : List Action) :
    (n.persistCommit after).1.standing = n.standing := rfl

@[simp] theorem standing_afterTermChange (changed : Bool) (after : List Action) :
    (n.afterTermChange changed after).1.standing = n.standing := by
  unfold afterTermChange
  split <;> rfl

theorem standing_applyLoop (count : Nat) (n : Node) :
    (n.applyLoop count).1.standing = n.standing := by
  induction count generalizing n with
  | zero => rfl
  | succ count ih =>
      unfold applyLoop
      split
      · rfl
      · exact ih _

@[simp] theorem standing_applyThrough (index : Nat) :
    (n.applyThrough index).1.standing = n.standing := by
  unfold applyThrough
  split
  · rfl
  · exact standing_applyLoop _ n

theorem standing_acknowledgeRead (response : AppendEntriesResponse) :
    (n.acknowledgeRead response).1.standing = n.standing := by
  unfold acknowledgeRead
  split
  · rfl
  · split
    · rfl
    · dsimp only
      split <;> rfl

@[simp] theorem standing_sendAppendEntriesTo (peer : NodeID) (readID : ReadID) :
    (n.sendAppendEntriesTo peer readID).1.standing = n.standing := by
  unfold sendAppendEntriesTo
  dsimp only
  repeat' split
  all_goals rfl

theorem standing_sendToPeers (readID : ReadID) (peers : List NodeID) (n : Node) :
    (sendToPeers readID peers n).1.standing = n.standing := by
  induction peers generalizing n with
  | nil => rfl
  | cons peer peers ih => exact (ih _).trans (standing_sendAppendEntriesTo ..)

@[simp] theorem standing_sendAppendEntries (readID : ReadID) :
    (n.sendAppendEntries readID).1.standing = n.standing :=
  standing_sendToPeers readID n.peers n

theorem standing_heartbeatRound : n.heartbeatRound.1.standing = n.standing := by
  unfold heartbeatRound
  split
  · rfl
  · exact standing_sendAppendEntries 0

theorem standing_advanceLeaderCommit : n.advanceLeaderCommit.1.standing = n.standing := by
  unfold advanceLeaderCommit
  split <;> rfl

@[simp] theorem standing_advanceFollowerCommit (leaderCommit : Nat) (after : List Action) :
    (n.advanceFollowerCommit leaderCommit after).1.standing = n.standing := by
  unfold advanceFollowerCommit
  dsimp only
  split
  · rfl
  · exact standing_applyThrough _

theorem standing_compactLog (index term : Nat) :
    (n.compactLog index term).standing = n.standing := by
  unfold compactLog
  split <;> rfl

theorem standing_acceptEntries (request : AppendEntries) (entries : List LogEntry)
    (truncateFrom : Nat) :
    (n.acceptEntries request entries truncateFrom).1.standing = n.standing := by
  unfold acceptEntries
  split
  · dsimp only
    split <;> rfl
  · split
    · rfl
    · exact standing_advanceFollowerCommit ..

theorem standing_answerEntries (request : AppendEntries) :
    (n.answerEntries request).1.standing = n.standing := by
  unfold answerEntries
  split
  · rfl
  · split
    · rfl
    · exact standing_acceptEntries ..

theorem standing_answerSnapshot (request : InstallSnapshot) :
    (n.answerSnapshot request).1.standing = n.standing := by
  unfold answerSnapshot
  split <;> rfl

theorem standing_installSnapshot (request : InstallSnapshot) (retainSuffix : Bool) :
    (n.installSnapshot request retainSuffix).standing = n.standing := by
  unfold installSnapshot
  cases retainSuffix
  all_goals
    dsimp only
    split <;> rfl

theorem standing_continueReplication (response : AppendEntriesResponse) (leaderCommit : Nat) :
    (n.continueReplication response leaderCommit).1.standing = n.standing := by
  unfold continueReplication
  dsimp only
  split
  · rw [standing_persistCommit, standing_sendAppendEntries, standing_advanceLeaderCommit]
  · split
    · exact standing_sendAppendEntriesTo ..
    · rfl

/-! ## Completions -/

theorem standing_hardStatePersisted (id : Nat) :
    (n.hardStatePersisted id).1.standing = n.standing := by
  unfold hardStatePersisted
  split
  · rfl
  · unfold completeHardState
    dsimp only
    split <;> rfl

theorem standing_logEntriesPersisted (id : Nat) :
    (n.logEntriesPersisted id).1.standing = n.standing := by
  unfold logEntriesPersisted
  split
  · rfl
  · unfold completeLog
    dsimp only
    split
    · split
      · rfl
      · exact standing_sendAppendEntries 0
    · split
      · rfl
      · exact standing_advanceFollowerCommit ..

theorem standing_commitIndexPersisted (id : Nat) :
    (n.commitIndexPersisted id).1.standing = n.standing := by
  unfold commitIndexPersisted
  split
  · rfl
  · exact standing_applyThrough _

theorem standing_snapshotPersisted (id : Nat) :
    (n.snapshotPersisted id).1.standing = n.standing := by
  unfold snapshotPersisted
  split
  · rfl
  · exact standing_installSnapshot ..

/-! ## Events -/

theorem Shifts.unchanged {event : Event} {n' : Node} (hstanding : n'.standing = n.standing)
    (hcontact : n.contact event = none) (hcheck : event ≠ .checkQuorumTimeout)
    (hexpired : event ≠ .electionTimeout) (hled : event.leadership = none) :
    n.Shifts event n'.standing := by
  rw [hstanding]
  refine .stays hcontact (fun h => absurd h hcheck) (fun h => absurd h hexpired) ?_
  intro leader term h
  rw [hled] at h
  simp at h

theorem standing_becomeFollower (term : Nat) :
    (n.becomeFollower term []).standing =
      { peers := n.peers
        role := .follower
        term := term
        leaderID := []
        recentLeaderContact := false
        activePeers := ∅ } := by
  simp [becomeFollower, standing]

theorem standing_recognizeLeader (term : Nat) (leader : NodeID) (h : n.term ≤ term) :
    (n.recognizeLeader term leader).standing =
      { peers := n.peers
        role := .follower
        term := term
        leaderID := leader
        recentLeaderContact := true
        activePeers := if n.term < term then ∅ else n.activePeers } := by
  unfold recognizeLeader
  by_cases hnewer : term > n.term
  · simp [hnewer, becomeFollower, standing]
  · obtain rfl : n.term = term := by omega
    simp [standing]

theorem shifts_electionTimeout : n.Shifts .electionTimeout n.startPreVote.1.standing := by
  unfold startPreVote
  split
  next hrole =>
    exact .stays rfl nofun (fun _ => hrole) nofun
  next hrole =>
    dsimp only
    split
    · exact .campaignsAlone rfl hrole
    · exact .probes rfl hrole

theorem shifts_checkQuorumTimeout : n.Shifts .checkQuorumTimeout n.checkQuorum.1.standing := by
  unfold checkQuorum
  split
  next hrole =>
    exact .stays rfl (fun _ => hrole) nofun nofun
  next hrole =>
    split
    next hfew =>
      rw [standing_becomeFollower]
      exact .isolated rfl (not_not.mp hrole) hfew
    next hfew => exact .sustained rfl (not_not.mp hrole) (Nat.not_lt.mp hfew)

theorem shifts_preVoteResponse (response : PreVoteResponse) :
    n.Shifts (.preVoteResponse response) (n.handlePreVoteResponse response).1.standing := by
  unfold handlePreVoteResponse
  split
  next hnewer =>
    rw [standing_persistHardState, standing_becomeFollower]
    exact .stepsDown hnewer rfl
  · split
    · exact .unchanged rfl rfl nofun nofun rfl
    next hrole =>
      dsimp only
      split
      · exact .unchanged rfl rfl nofun nofun rfl
      · exact .campaigns rfl (by simp only [not_or, not_not] at hrole; exact hrole.1)

theorem shifts_voteRequest (request : VoteRequest) :
    n.Shifts (.voteRequest request) (n.handleVoteRequest request).1.standing := by
  unfold handleVoteRequest
  split
  · exact .unchanged rfl rfl nofun nofun rfl
  · dsimp only
    by_cases hnewer : request.term > n.term
    · have hshift : n.Shifts (.voteRequest request) (n.becomeFollower request.term []).standing := by
        rw [standing_becomeFollower]
        exact .stepsDown hnewer rfl
      simp only [hnewer, decide_true, if_true, Bool.true_or]
      split <;> exact hshift
    · simp only [hnewer, decide_false, Bool.false_or, Bool.false_eq_true, if_false]
      refine .unchanged ?_ rfl nofun nofun rfl
      repeat' split
      all_goals rfl

theorem shifts_voteResponse (response : VoteResponse) :
    n.Shifts (.voteResponse response) (n.handleVoteResponse response).1.standing := by
  unfold handleVoteResponse
  split
  next hnewer =>
    rw [standing_persistHardState, standing_becomeFollower]
    exact .stepsDown hnewer rfl
  · split
    · exact .unchanged rfl rfl nofun nofun rfl
    next hrole =>
      dsimp only
      split
      · exact .unchanged rfl rfl nofun nofun rfl
      · exact .wins rfl (by simp only [not_or, not_not] at hrole; exact hrole.1)

theorem shifts_appendEntries (request : AppendEntries) :
    n.Shifts (.appendEntries request) (n.handleAppendEntries request).1.standing := by
  unfold handleAppendEntries
  split
  next hold =>
    refine .stays rfl nofun nofun ?_
    rintro leader term ⟨⟩
    exact hold
  next hnewer =>
    dsimp only
    rw [standing_afterTermChange, standing_answerEntries,
      standing_recognizeLeader _ _ (Nat.not_lt.mp hnewer)]
    exact .recognizes rfl (Nat.not_lt.mp hnewer)

theorem shifts_installSnapshot (request : InstallSnapshot) :
    n.Shifts (.installSnapshot request) (n.handleInstallSnapshot request).1.standing := by
  unfold handleInstallSnapshot
  split
  next hold =>
    refine .stays rfl nofun nofun ?_
    rintro leader term ⟨⟩
    exact hold
  next hnewer =>
    dsimp only
    rw [standing_afterTermChange, standing_answerSnapshot,
      standing_recognizeLeader _ _ (Nat.not_lt.mp hnewer)]
    exact .recognizes rfl (Nat.not_lt.mp hnewer)

theorem standing_recordResponse (response : AppendEntriesResponse) :
    (n.recordResponse response).standing =
      { n.standing with activePeers := insert response.sender n.activePeers } := by
  unfold recordResponse
  split <;> rfl

theorem shifts_appendEntriesResponse (response : AppendEntriesResponse) :
    n.Shifts (.appendEntriesResponse response)
      (n.handleAppendEntriesResponse response).1.standing := by
  unfold handleAppendEntriesResponse
  split
  next hnewer =>
    rw [standing_persistHardState, standing_becomeFollower]
    exact .stepsDown hnewer rfl
  · split
    next hrole =>
      refine .unchanged rfl (if_neg ?_) nofun nofun rfl
      rintro ⟨hleader, hterm, -⟩
      exact hrole.elim (· hleader) (· hterm)
    next hrole =>
      simp only [not_or, not_not] at hrole
      dsimp only
      split
      next hold =>
        refine .unchanged rfl (if_neg ?_) nofun nofun rfl
        rintro ⟨-, -, hcurrent⟩
        exact hcurrent hold
      next hcurrent =>
        rw [standing_acknowledgeRead, standing_continueReplication, standing_recordResponse]
        exact .hears (if_pos ⟨hrole.1, hrole.2, hcurrent⟩)

theorem shifts_installSnapshotResponse (response : InstallSnapshotResponse) :
    n.Shifts (.installSnapshotResponse response)
      (n.handleInstallSnapshotResponse response).1.standing := by
  unfold handleInstallSnapshotResponse
  split
  next hnewer =>
    rw [standing_persistHardState, standing_becomeFollower]
    exact .stepsDown hnewer rfl
  · refine .unchanged ?_ rfl nofun nofun rfl
    split
    · rfl
    · split
      · rfl
      · split
        · rfl
        · exact standing_sendAppendEntriesTo ..

/-- Every step changes the standing in one of these ways. -/
theorem step_shifts (n : Node) (event : Event) : n.Shifts event (n.step event).1.standing := by
  cases event with
  | electionTimeout => exact shifts_electionTimeout
  | heartbeatTimeout => exact .unchanged standing_heartbeatRound rfl nofun nofun rfl
  | checkQuorumTimeout => exact shifts_checkQuorumTimeout
  | hardStatePersisted id =>
      exact .unchanged (standing_hardStatePersisted id) rfl nofun nofun rfl
  | logEntriesPersisted id =>
      exact .unchanged (standing_logEntriesPersisted id) rfl nofun nofun rfl
  | commitIndexPersisted id =>
      exact .unchanged (standing_commitIndexPersisted id) rfl nofun nofun rfl
  | snapshotPersisted id =>
      exact .unchanged (standing_snapshotPersisted id) rfl nofun nofun rfl
  | recoverCommitted => exact .unchanged (standing_applyThrough _) rfl nofun nofun rfl
  | snapshotCompacted index term =>
      exact .unchanged (standing_compactLog index term) rfl nofun nofun rfl
  | proposeSession proposal =>
      refine .unchanged ?_ rfl nofun nofun rfl
      simp only [step, proposeSession]
      split
      · rfl
      · split <;> rfl
  | proposeSet proposal =>
      refine .unchanged ?_ rfl nofun nofun rfl
      simp only [step, proposeSet]
      split <;> rfl
  | proposeDelete proposal =>
      refine .unchanged ?_ rfl nofun nofun rfl
      simp only [step, proposeDelete]
      split <;> rfl
  | confirmRead readID =>
      refine .unchanged ?_ rfl nofun nofun rfl
      simp only [step, confirmRead]
      split
      · rfl
      · split
        · rfl
        · exact standing_sendAppendEntries readID
  | preVoteRequest request => exact .unchanged rfl rfl nofun nofun rfl
  | preVoteResponse response => exact shifts_preVoteResponse response
  | voteRequest request => exact shifts_voteRequest request
  | voteResponse response => exact shifts_voteResponse response
  | appendEntries request => exact shifts_appendEntries request
  | appendEntriesResponse response => exact shifts_appendEntriesResponse response
  | appendEntriesFailed dest requestID =>
      refine .unchanged ?_ rfl nofun nofun rfl
      simp only [step, handleAppendEntriesFailed]
      split <;> (split <;> rfl)
  | installSnapshot request => exact shifts_installSnapshot request
  | installSnapshotResponse response => exact shifts_installSnapshotResponse response

def steps (n : Node) : List Event → Node
  | [] => n
  | event :: events => (n.step event).1.steps events

end Node

end QuorumKV.Raft
