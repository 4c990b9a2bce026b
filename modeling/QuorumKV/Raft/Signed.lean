import QuorumKV.Raft.Standing

/-!
# Senders

Every message the core composes names the core's own Node as its sender, also one
that is parked behind a write and sent when the write is durable.
-/

namespace QuorumKV.Raft

/-- The Node that acts, and the chunks of its Snapshots that it may send. -/
structure Author where
  id : NodeID
  offers : (index term offset : Nat) → Prop

/-- The action's message names the author as its sender, or it sends a chunk on offer. -/
def Action.By (a : Author) : Action → Prop
  | .sendPreVoteRequest _ request => request.sender = a.id
  | .sendPreVoteResponse _ response => response.sender = a.id
  | .sendVoteRequest _ request => request.sender = a.id
  | .sendVoteResponse _ response => response.sender = a.id
  | .sendAppendEntries _ request => request.sender = a.id
  | .sendAppendEntriesResponse _ response => response.sender = a.id
  | .sendInstallSnapshotResponse _ response => response.sender = a.id
  | .sendInstallSnapshot _ _ _ index term offset => a.offers index term offset
  | _ => True

/-- A message that the action carries names `id` as its sender. -/
def Action.SignedBy (id : NodeID) : Action → Prop := Action.By ⟨id, fun _ _ _ => True⟩

def AllSigned (a : Author) (actions : List Action) : Prop :=
  ∀ action ∈ actions, action.By a

section AllSigned

variable {a : Author} {action : Action} {actions others : List Action}

@[simp] theorem allSigned_nil : AllSigned a [] := by simp [AllSigned]

@[simp] theorem allSigned_cons :
    AllSigned a (action :: actions) ↔ action.By a ∧ AllSigned a actions := by
  simp [AllSigned]

@[simp] theorem allSigned_append :
    AllSigned a (actions ++ others) ↔ AllSigned a actions ∧ AllSigned a others := by
  simp [AllSigned, or_imp, forall_and]

end AllSigned

/-- The response makes a Leader go on with the transfer it answers. -/
def Node.Resumes (n : Node) (r : InstallSnapshotResponse) : Prop :=
  n.role = .leader ∧ r.term = n.term ∧ n.snapshotInFlight r.sender = r.requestID ∧
    r.success = true ∧ r.done = false

instance (n : Node) (r : InstallSnapshotResponse) : Decidable (n.Resumes r) :=
  inferInstanceAs (Decidable (_ ∧ _))

/-- The new base, or the offset into the old one, that an event brings is on offer. -/
def Author.Admits (a : Author) (n : Node) : Event → Prop
  | .snapshotCompacted index term => a.offers index term 0
  | .installSnapshot r =>
      r.success = true → r.done = true → a.offers r.snapshotIndex r.snapshotTerm 0
  | .installSnapshotResponse r =>
      n.Resumes r → a.offers n.logBaseIndex n.logBaseTerm r.nextOffset
  | _ => True

namespace Node

/-- The author's core: it may offer its base, and what is behind its pending writes. -/
structure Signed (a : Author) (n : Node) : Prop where
  self : n.id = a.id
  based : 0 < n.logBaseIndex → a.offers n.logBaseIndex n.logBaseTerm 0
  hardState : ∀ write pending, n.pendingHardState write = some pending →
    AllSigned a pending.after
  commit : ∀ write pending, n.pendingCommit write = some pending → AllSigned a pending.after
  snapshot : ∀ write pending, n.pendingSnapshot write = some pending →
    a.offers pending.request.snapshotIndex pending.request.snapshotTerm 0

def Signs (a : Author) (result : Node × List Action) : Prop :=
  result.1.Signed a ∧ AllSigned a result.2

section Signed

variable {a : Author} {n n' : Node} {after : List Action}

theorem Signed.congr (h : n.Signed a)
    (hself : (n'.id, n'.logBaseIndex, n'.logBaseTerm) = (n.id, n.logBaseIndex, n.logBaseTerm))
    (hhard : n'.pendingHardState = n.pendingHardState)
    (hlater : (n'.pendingCommit, n'.pendingSnapshot) = (n.pendingCommit, n.pendingSnapshot)) :
    n'.Signed a := by
  simp only [Prod.mk.injEq] at hself hlater
  obtain ⟨hid, hbase, hterm⟩ := hself
  exact ⟨hid.trans h.self, hbase ▸ hterm ▸ h.based, hhard ▸ h.hardState, hlater.1 ▸ h.commit,
    hlater.2 ▸ h.snapshot⟩

/-! ### Writes -/

theorem Signed.persistHardState (h : n.Signed a) (hafter : AllSigned a after) :
    Signs a (n.persistHardState after) := by
  refine ⟨⟨h.self, h.based, ?_, h.commit, h.snapshot⟩,
    by simp [Node.persistHardState, Action.By]⟩
  intro write pending hpending
  simp only [Node.persistHardState, Function.update_apply] at hpending
  split at hpending
  · cases hpending
    exact hafter
  · exact h.hardState write pending hpending

theorem Signed.persistCommit (h : n.Signed a) (hafter : AllSigned a after) :
    Signs a (n.persistCommit after) := by
  refine ⟨⟨h.self, h.based, h.hardState, ?_, h.snapshot⟩,
    by simp [Node.persistCommit, Action.By]⟩
  intro write pending hpending
  simp only [Node.persistCommit, Function.update_apply] at hpending
  split at hpending
  · cases hpending
    exact hafter
  · exact h.commit write pending hpending

theorem Signed.persistLog (h : n.Signed a) (entries : List LogEntry)
    (pending : PendingLogPersistence) : Signs a (n.persistLog entries pending) :=
  ⟨h.congr rfl rfl rfl, by simp [Node.persistLog, Action.By]⟩

theorem Signed.persistSnapshot (h : n.Signed a) {request : InstallSnapshot} (retain : Bool)
    (hoffers : a.offers request.snapshotIndex request.snapshotTerm 0) :
    Signs a (n.persistSnapshot request retain) := by
  refine ⟨⟨h.self, h.based, h.hardState, h.commit, ?_⟩,
    by simp [Node.persistSnapshot, Action.By]⟩
  intro write pending hpending
  simp only [Node.persistSnapshot, Function.update_apply] at hpending
  split at hpending
  · cases hpending
    exact hoffers
  · exact h.snapshot write pending hpending

theorem Signed.afterTermChange (h : n.Signed a) (changed : Bool) (hafter : AllSigned a after) :
    Signs a (n.afterTermChange changed after) := by
  rw [Node.afterTermChange]
  split
  · exact h.persistHardState hafter
  · exact ⟨h, hafter⟩

/-! ### Role changes and responses -/

theorem Signed.becomeFollower (h : n.Signed a) (term : Nat) (leader : NodeID) :
    (n.becomeFollower term leader).Signed a :=
  h.congr rfl rfl rfl

theorem Signed.recognizeLeader (h : n.Signed a) (term : Nat) (leader : NodeID) :
    (n.recognizeLeader term leader).Signed a := by
  rw [Node.recognizeLeader]
  split
  · exact (h.becomeFollower term leader).congr rfl rfl rfl
  · exact h.congr rfl rfl rfl

theorem Signed.stepDown (h : n.Signed a) (term : Nat) :
    Signs a ((n.becomeFollower term []).persistHardState []) :=
  (h.becomeFollower term []).persistHardState allSigned_nil

theorem Signed.voteResponse (h : n.Signed a) (dest : NodeID) (granted : Bool) :
    AllSigned a (n.voteResponse dest granted) := by
  simp [Node.voteResponse, Action.By, h.self]

theorem Signed.appendEntriesResponse (h : n.Signed a) (dest : NodeID) (requestID : Nat)
    (success : Bool) (matchIndex conflictTerm conflictIndex : Nat) (readID : ReadID) :
    AllSigned a (n.appendEntriesResponse dest requestID success matchIndex conflictTerm
      conflictIndex readID) := by
  simp [Node.appendEntriesResponse, Action.By, h.self]

theorem Signed.snapshotResponse (h : n.Signed a) (request : InstallSnapshot) (success : Bool)
    (nextOffset : Nat) (done : Bool) :
    AllSigned a (n.snapshotResponse request success nextOffset done) := by
  simp [Node.snapshotResponse, Action.By, h.self]

/-! ### Application and reads -/

theorem Signed.completeReads (h : n.Signed a) : Signs a n.completeReads := by
  refine ⟨h.congr rfl rfl rfl, ?_⟩
  intro action haction
  obtain ⟨read, -, rfl⟩ := List.mem_map.mp haction
  trivial

theorem Signed.applyLoop (h : n.Signed a) (count : Nat) : Signs a (n.applyLoop count) := by
  induction count generalizing n with
  | zero => exact ⟨h, allSigned_nil⟩
  | succ count ih =>
      rw [Node.applyLoop]
      split
      · exact ⟨h, allSigned_nil⟩
      next entry hentry =>
        have hnext : Signed a { n with
            lastApplied := n.lastApplied + 1
            readReady := n.readReady || decide (n.role = .leader ∧ n.readReady = false ∧
              entry.type = .noOp ∧ entry.term = n.term) } := h.congr rfl rfl rfl
        have hrest := ih hnext
        refine ⟨hrest.1, ?_⟩
        simp only [allSigned_cons, allSigned_append]
        refine ⟨trivial, ?_, hrest.2⟩
        split <;> simp [Action.By]

theorem Signed.applyThrough (h : n.Signed a) (index : Nat) : Signs a (n.applyThrough index) := by
  rw [Node.applyThrough]
  split
  · exact h.completeReads
  · have happlied := h.applyLoop (index - n.lastApplied)
    have hcompleted := happlied.1.completeReads
    exact ⟨hcompleted.1, allSigned_append.mpr ⟨happlied.2, hcompleted.2⟩⟩

theorem Signed.acknowledgeRead (h : n.Signed a) (response : AppendEntriesResponse) :
    Signs a (n.acknowledgeRead response) := by
  rw [Node.acknowledgeRead]
  split
  · exact ⟨h, allSigned_nil⟩
  · split
    · exact ⟨h, allSigned_nil⟩
    · simp only
      split
      · exact ⟨h.congr rfl rfl rfl, allSigned_nil⟩
      · exact Signed.completeReads (h.congr rfl rfl rfl)

/-! ### Replication -/

theorem Signed.sendAppendEntriesTo (h : n.Signed a) (peer : NodeID) (readID : ReadID) :
    Signs a (n.sendAppendEntriesTo peer readID) := by
  simp only [Node.sendAppendEntriesTo]
  generalize hnext : (if n.nextIndex peer = 0 ∨
    n.nextIndex peer > min n.durableLogIndex n.lastLogIndex + 1
    then min n.durableLogIndex n.lastLogIndex + 1 else n.nextIndex peer) = nextIndex
  have hpos : 0 < nextIndex := by
    split at hnext <;> omega
  split
  · exact ⟨h, allSigned_nil⟩
  split
  next hbase =>
    split
    · exact ⟨h, allSigned_nil⟩
    · exact ⟨h.congr rfl rfl rfl, by simpa [Action.By] using h.based (hpos.trans_le hbase)⟩
  · exact ⟨h.congr rfl rfl rfl, by simp [Action.By, h.self]⟩

theorem Signed.sendToPeers (h : n.Signed a) (readID : ReadID) (peers : List NodeID) :
    Signs a (Node.sendToPeers readID peers n) := by
  induction peers generalizing n with
  | nil => exact ⟨h, allSigned_nil⟩
  | cons peer peers ih =>
      have hsent := h.sendAppendEntriesTo peer
        (if readID = 0 then n.pendingReadFor peer else readID)
      have hothers := ih hsent.1
      exact ⟨hothers.1, allSigned_append.mpr ⟨hsent.2, hothers.2⟩⟩

theorem Signed.sendAppendEntries (h : n.Signed a) (readID : ReadID) :
    Signs a (n.sendAppendEntries readID) :=
  h.sendToPeers readID n.peers

theorem Signed.advanceFollowerCommit (h : n.Signed a) (leaderCommit : Nat)
    (hafter : AllSigned a after) : Signs a (n.advanceFollowerCommit leaderCommit after) := by
  simp only [Node.advanceFollowerCommit]
  split
  · exact Signed.persistCommit (h.congr rfl rfl rfl) hafter
  · have happlied := h.applyThrough n.durableCommitIndex
    exact ⟨happlied.1, allSigned_append.mpr ⟨happlied.2, hafter⟩⟩

/-! ### Elections -/

theorem Signed.startElection (h : n.Signed a) : Signs a n.startElection := by
  refine Signed.persistHardState (h.congr rfl rfl rfl) ?_
  rw [allSigned_cons]
  refine ⟨trivial, ?_⟩
  intro action haction
  obtain ⟨peer, -, rfl⟩ := List.mem_map.mp haction
  exact h.self

theorem Signed.startPreVote (h : n.Signed a) : Signs a n.startPreVote := by
  rw [Node.startPreVote]
  split
  · exact ⟨h, allSigned_nil⟩
  · have hprobes : AllSigned a (.resetElectionTimer :: n.peers.map fun peer =>
        Action.sendPreVoteRequest peer ⟨n.id, n.term + 1, n.lastLogIndex, n.lastLogTerm⟩) := by
      rw [allSigned_cons]
      refine ⟨trivial, ?_⟩
      intro action haction
      obtain ⟨peer, -, rfl⟩ := List.mem_map.mp haction
      exact h.self
    have hprobing : Signed a { n with
        recentLeaderContact := false
        leaderID := []
        role := .preCandidate
        preVotes := {n.id} } := h.congr rfl rfl rfl
    simp only
    split
    · have helection := hprobing.startElection
      exact ⟨helection.1, allSigned_append.mpr ⟨hprobes, helection.2⟩⟩
    · exact ⟨hprobing, hprobes⟩

theorem Signed.handlePreVoteResponse (h : n.Signed a) (response : PreVoteResponse) :
    Signs a (n.handlePreVoteResponse response) := by
  rw [Node.handlePreVoteResponse]
  split
  · exact h.stepDown _
  split
  · exact ⟨h, allSigned_nil⟩
  · simp only
    split
    · exact ⟨h.congr rfl rfl rfl, allSigned_nil⟩
    · exact Signed.startElection (h.congr rfl rfl rfl)

theorem Signed.handleVoteRequest (h : n.Signed a) (request : VoteRequest) :
    Signs a (n.handleVoteRequest request) := by
  rw [Node.handleVoteRequest]
  split
  · exact ⟨h, h.voteResponse _ _⟩
  · simp only
    generalize hfollowing : (if decide (request.term > n.term) = true
      then n.becomeFollower request.term [] else n) = following
    have hsigned : following.Signed a := by
      rw [← hfollowing]
      split
      · exact h.becomeFollower _ _
      · exact h
    generalize ((following.votedFor == [] || following.votedFor == request.sender) &&
      following.candidateLogIsUpToDate request.lastLogTerm request.lastLogIndex) = grant
    generalize hvoted : (if grant = true then { following with votedFor := request.sender }
      else following) = voted
    have hvoter : voted.Signed a := by
      rw [← hvoted]
      split
      · exact hsigned.congr rfl rfl rfl
      · exact hsigned
    split
    · exact hvoter.persistHardState (hvoter.voteResponse _ _)
    · exact ⟨hvoter, hvoter.voteResponse _ _⟩

theorem Signed.becomeLeader (h : n.Signed a) : Signs a n.becomeLeader := by
  rw [Node.becomeLeader]
  simp only
  refine ⟨h.congr rfl rfl rfl, ?_⟩
  simp [Node.persistLog, Action.By]

theorem Signed.handleVoteResponse (h : n.Signed a) (response : VoteResponse) :
    Signs a (n.handleVoteResponse response) := by
  rw [Node.handleVoteResponse]
  split
  · exact h.stepDown _
  split
  · exact ⟨h, allSigned_nil⟩
  · simp only
    split
    · exact ⟨h.congr rfl rfl rfl, allSigned_nil⟩
    · exact Signed.becomeLeader (h.congr rfl rfl rfl)

/-! ### Proposals and rounds -/

theorem Signed.proposeEntry (h : n.Signed a) (proposalID : ProposalID) (entry : LogEntry) :
    Signs a (n.proposeEntry proposalID entry) :=
  ⟨h.congr rfl rfl rfl, by simp [Node.proposeEntry, Node.persistLog, Action.By]⟩

theorem Signed.rejected (h : n.Signed a) (proposalID : ProposalID) (leader : NodeID) :
    Signs a (n, [.proposalRejected proposalID leader]) :=
  ⟨h, by simp [Action.By]⟩

theorem Signed.confirmRead (h : n.Signed a) (readID : ReadID) :
    Signs a (n.confirmRead readID) := by
  rw [Node.confirmRead]
  split
  · exact ⟨h, by simp [Action.By]⟩
  split
  · exact ⟨h, by simp [Action.By]⟩
  · refine Signed.sendAppendEntries ?_ readID
    exact h.congr rfl rfl rfl

theorem Signed.heartbeatRound (h : n.Signed a) : Signs a n.heartbeatRound := by
  rw [Node.heartbeatRound]
  split
  · exact ⟨h, allSigned_nil⟩
  · have hidle : Signed a { n with appendInFlight := fun _ => {} } := h.congr rfl rfl rfl
    have hsent := hidle.sendAppendEntries 0
    exact ⟨hsent.1, allSigned_cons.mpr ⟨trivial, hsent.2⟩⟩

theorem Signed.checkQuorum (h : n.Signed a) : Signs a n.checkQuorum := by
  rw [Node.checkQuorum]
  split
  · exact ⟨h, allSigned_nil⟩
  split
  · exact ⟨h.becomeFollower _ _, by simp [Action.By]⟩
  · exact ⟨h.congr rfl rfl rfl, by simp [Action.By]⟩

/-! ### Append traffic -/

theorem Signed.rejectEntries (h : n.Signed a) (request : AppendEntries) (index : Nat) :
    AllSigned a (n.rejectEntries request index) :=
  h.appendEntriesResponse _ _ _ _ _ _ _

theorem Signed.acceptEntries (h : n.Signed a) (request : AppendEntries)
    (entries : List LogEntry) (truncateFrom : Nat) :
    Signs a (n.acceptEntries request entries truncateFrom) := by
  rw [Node.acceptEntries]
  split
  · refine Signed.persistLog ?_ _ _
    split
    · exact h.congr rfl rfl rfl
    · exact h.congr rfl rfl rfl
  split
  · exact ⟨h, allSigned_nil⟩
  · exact h.advanceFollowerCommit _ (h.appendEntriesResponse _ _ _ _ _ _ _)

theorem Signed.handleAppendEntries (h : n.Signed a) (request : AppendEntries) :
    Signs a (n.handleAppendEntries request) := by
  rw [Node.handleAppendEntries]
  split
  · exact ⟨h, h.appendEntriesResponse _ _ _ _ _ _ _⟩
  · have hleader := h.recognizeLeader request.term request.sender
    have hanswered : Signs a
        ((n.recognizeLeader request.term request.sender).answerEntries request) := by
      rw [Node.answerEntries]
      split
      · exact ⟨hleader, hleader.rejectEntries request _⟩
      · split
        · exact ⟨hleader, hleader.rejectEntries request _⟩
        · exact hleader.acceptEntries request _ _
    exact hanswered.1.afterTermChange _ (allSigned_cons.mpr ⟨trivial, hanswered.2⟩)

theorem Signed.recordResponse (h : n.Signed a) (response : AppendEntriesResponse) :
    (n.recordResponse response).Signed a := by
  rw [Node.recordResponse]
  split
  · exact h.congr rfl rfl rfl
  · exact h.congr rfl rfl rfl

theorem Signed.continueReplication (h : n.Signed a) (response : AppendEntriesResponse)
    (leaderCommit : Nat) : Signs a (n.continueReplication response leaderCommit) := by
  have hadvanced : n.advanceLeaderCommit.1.Signed a := by
    rw [Node.advanceLeaderCommit]
    split
    · exact h
    · exact h.congr rfl rfl rfl
  rw [Node.continueReplication]
  simp only
  split
  · have hbroadcast := hadvanced.sendAppendEntries 0
    exact hbroadcast.1.persistCommit hbroadcast.2
  split
  · exact h.sendAppendEntriesTo _ _
  · exact ⟨h, allSigned_nil⟩

theorem Signed.handleAppendEntriesResponse (h : n.Signed a) (response : AppendEntriesResponse) :
    Signs a (n.handleAppendEntriesResponse response) := by
  rw [Node.handleAppendEntriesResponse]
  split
  · exact h.stepDown _
  split
  · exact ⟨h, allSigned_nil⟩
  · simp only
    split
    · exact ⟨h, allSigned_nil⟩
    · have hsent := (h.recordResponse response).continueReplication response
        (n.appendInFlight response.sender).leaderCommit
      have hacknowledged := hsent.1.acknowledgeRead response
      exact ⟨hacknowledged.1, allSigned_append.mpr ⟨hsent.2, hacknowledged.2⟩⟩

theorem Signed.handleAppendEntriesFailed (h : n.Signed a) (dest : NodeID) (requestID : Nat) :
    Signs a (n.handleAppendEntriesFailed dest requestID) := by
  refine ⟨?_, allSigned_nil⟩
  rw [Node.handleAppendEntriesFailed]
  simp only
  split
  · split
    · exact h.congr rfl rfl rfl
    · exact h.congr rfl rfl rfl
  · split
    · exact h.congr rfl rfl rfl
    · exact h

/-! ### Snapshots -/

theorem Signed.handleInstallSnapshot (h : n.Signed a) (request : InstallSnapshot)
    (hadmits : a.Admits n (.installSnapshot request)) :
    Signs a (n.handleInstallSnapshot request) := by
  rw [Node.handleInstallSnapshot]
  split
  · exact ⟨h, h.snapshotResponse _ _ _ _⟩
  · have hleader := h.recognizeLeader request.term request.sender
    have hanswered : Signs a
        ((n.recognizeLeader request.term request.sender).answerSnapshot request) := by
      rw [Node.answerSnapshot]
      split
      next hdone => exact hleader.persistSnapshot _ (hadmits hdone.1 hdone.2.1)
      · exact ⟨hleader, hleader.snapshotResponse _ _ _ _⟩
    exact hanswered.1.afterTermChange _ (allSigned_cons.mpr ⟨trivial, hanswered.2⟩)

theorem Signed.installSnapshot (h : n.Signed a) {request : InstallSnapshot} (retain : Bool)
    (hoffers : a.offers request.snapshotIndex request.snapshotTerm 0) :
    (n.installSnapshot request retain).Signed a := by
  rw [Node.installSnapshot]
  simp only
  split <;> split <;> exact ⟨h.self, fun _ => hoffers, h.hardState, h.commit, h.snapshot⟩

theorem Signed.snapshotPersisted (h : n.Signed a) (write : Nat) :
    Signs a (n.snapshotPersisted write) := by
  rw [Node.snapshotPersisted]
  split
  · exact ⟨h, allSigned_nil⟩
  next pending hpending =>
    have hwaiting : Signed a { n with
        pendingSnapshot := Function.update n.pendingSnapshot write none } := by
      refine ⟨h.self, h.based, h.hardState, h.commit, ?_⟩
      intro other waiting hwaiting
      simp only [Function.update_apply] at hwaiting
      split at hwaiting
      · simp at hwaiting
      · exact h.snapshot other waiting hwaiting
    have hinstalled :=
      hwaiting.installSnapshot pending.retainSuffix (h.snapshot write pending hpending)
    exact ⟨hinstalled, allSigned_cons.mpr ⟨trivial, hinstalled.snapshotResponse _ _ _ _⟩⟩

theorem Signed.handleInstallSnapshotResponse (h : n.Signed a)
    (response : InstallSnapshotResponse) (hadmits : a.Admits n (.installSnapshotResponse response)) :
    Signs a (n.handleInstallSnapshotResponse response) := by
  rw [Node.handleInstallSnapshotResponse]
  split
  · exact h.stepDown _
  split
  · exact ⟨h, allSigned_nil⟩
  next hcurrent =>
  split
  · exact ⟨h.congr rfl rfl rfl, allSigned_nil⟩
  split
  next hsuccess hpart =>
    simp only [not_or, not_not] at hcurrent
    obtain ⟨hrole, hterm, hflight⟩ := hcurrent
    have hoffers := hadmits ⟨hrole, hterm, hflight, Bool.eq_true_of_not_eq_false hsuccess, hpart⟩
    exact ⟨h, by simpa [Action.By] using hoffers⟩
  · refine Signed.sendAppendEntriesTo ?_ _ _
    exact h.congr rfl rfl rfl

/-! ### Completions -/

theorem Signed.hardStatePersisted (h : n.Signed a) (write : Nat) :
    Signs a (n.hardStatePersisted write) := by
  rw [Node.hardStatePersisted]
  split
  · exact ⟨h, allSigned_nil⟩
  next pending hpending =>
    have hdone : Signed a { n with
        pendingHardState := Function.update n.pendingHardState write none } := by
      refine ⟨h.self, h.based, ?_, h.commit, h.snapshot⟩
      intro other waiting hwaiting
      simp only [Function.update_apply] at hwaiting
      split at hwaiting
      · simp at hwaiting
      · exact h.hardState other waiting hwaiting
    rw [Node.completeHardState]
    simp only
    split
    · exact ⟨hdone.congr rfl rfl rfl, allSigned_nil⟩
    · exact ⟨hdone.congr rfl rfl rfl, h.hardState write pending hpending⟩

theorem Signed.logEntriesPersisted (h : n.Signed a) (write : Nat) :
    Signs a (n.logEntriesPersisted write) := by
  rw [Node.logEntriesPersisted]
  split
  · exact ⟨h, allSigned_nil⟩
  next pending hpending =>
    have hdone : Signed a { n with
        pendingLog := Function.update n.pendingLog write none
        durableLogIndex := max n.durableLogIndex pending.lastIndex } := h.congr rfl rfl rfl
    rw [Node.completeLog]
    simp only
    split
    · split
      · exact ⟨hdone, allSigned_nil⟩
      · exact hdone.sendAppendEntries 0
    · split
      · exact ⟨hdone, allSigned_nil⟩
      · exact hdone.advanceFollowerCommit _ (hdone.appendEntriesResponse _ _ _ _ _ _ _)

theorem Signed.commitIndexPersisted (h : n.Signed a) (write : Nat) :
    Signs a (n.commitIndexPersisted write) := by
  rw [Node.commitIndexPersisted]
  split
  · exact ⟨h, allSigned_nil⟩
  next pending hpending =>
    have hdone : Signed a { n with
        pendingCommit := Function.update n.pendingCommit write none
        durableCommitIndex := max n.durableCommitIndex pending.commitIndex } := by
      refine ⟨h.self, h.based, h.hardState, ?_, h.snapshot⟩
      intro other waiting hwaiting
      simp only [Function.update_apply] at hwaiting
      split at hwaiting
      · simp at hwaiting
      · exact h.commit other waiting hwaiting
    have happlied := hdone.applyThrough pending.commitIndex
    exact ⟨happlied.1, allSigned_append.mpr ⟨happlied.2, h.commit write pending hpending⟩⟩

theorem Signed.step (h : n.Signed a) {event : Event} (hadmits : a.Admits n event) :
    Signs a (n.step event) := by
  cases event with
  | electionTimeout => exact h.startPreVote
  | heartbeatTimeout => exact h.heartbeatRound
  | checkQuorumTimeout => exact h.checkQuorum
  | hardStatePersisted write => exact h.hardStatePersisted write
  | logEntriesPersisted write => exact h.logEntriesPersisted write
  | commitIndexPersisted write => exact h.commitIndexPersisted write
  | snapshotPersisted write => exact h.snapshotPersisted write
  | recoverCommitted => exact h.applyThrough _
  | snapshotCompacted index term =>
      refine ⟨?_, allSigned_nil⟩
      simp only [Node.step, Node.compactLog]
      split
      · exact h
      · exact ⟨h.self, fun _ => hadmits, h.hardState, h.commit, h.snapshot⟩
  | proposeSession proposal =>
      simp only [Node.step, Node.proposeSession]
      split
      · exact h.rejected _ _
      split
      · exact ⟨h, allSigned_nil⟩
      · exact h.proposeEntry _ _
  | proposeSet proposal =>
      simp only [Node.step, Node.proposeSet]
      split
      · exact h.rejected _ _
      · exact h.proposeEntry _ _
  | proposeDelete proposal =>
      simp only [Node.step, Node.proposeDelete]
      split
      · exact h.rejected _ _
      · exact h.proposeEntry _ _
  | confirmRead readID => exact h.confirmRead readID
  | preVoteRequest request =>
      exact ⟨h, by simp [Node.step, Node.handlePreVoteRequest, Action.By, h.self]⟩
  | preVoteResponse response => exact h.handlePreVoteResponse response
  | voteRequest request => exact h.handleVoteRequest request
  | voteResponse response => exact h.handleVoteResponse response
  | appendEntries request => exact h.handleAppendEntries request
  | appendEntriesResponse response => exact h.handleAppendEntriesResponse response
  | appendEntriesFailed dest requestID => exact h.handleAppendEntriesFailed dest requestID
  | installSnapshot request => exact h.handleInstallSnapshot request hadmits
  | installSnapshotResponse response => exact h.handleInstallSnapshotResponse response hadmits

theorem admits_any (hoffers : ∀ index term offset, a.offers index term offset) (n : Node)
    (event : Event) : a.Admits n event := by
  cases event with
  | installSnapshot request => exact fun _ _ => hoffers _ _ _
  | installSnapshotResponse response => exact fun _ => hoffers _ _ _
  | snapshotCompacted index term => exact hoffers _ _ _
  | _ => trivial

theorem Signed.steps (h : n.Signed a) (hoffers : ∀ index term offset, a.offers index term offset)
    (events : List Event) : (n.steps events).Signed a := by
  induction events generalizing n with
  | nil => exact h
  | cons event events ih => exact ih (h.step (admits_any hoffers n event)).1

end Signed

theorem signed_recovered (id : NodeID) (peers : List NodeID) (recovered : RecoveredState) :
    (newNodeFromRecoveredState id peers recovered).Signed ⟨id, fun _ _ _ => True⟩ :=
  ⟨rfl, fun _ => trivial, nofun, nofun, nofun⟩

end Node

end QuorumKV.Raft
