import QuorumKV.Runtime.LockStep

/-!
# Every event keeps the core and the WAL in step

One lemma for each handler of the core: from a core in step with its WAL, the
actions of the event are a steady queue.  A handler that enters a newer term is
reduced to the core whose hard state is durable already.
-/

namespace QuorumKV.Runtime

open Raft Foundation

variable {n m : Node} {d : Disk} {fuel : Nat}

/-! ## Timers -/

theorem InStep.startElection (h : InStep n d) :
    Steady (fuel + 1) n.startElection.1 d n.startElection.2 := by
  unfold Node.startElection
  refine h.adopts ?_ ?_ fun action haction => ?_
  · rfl
  · rfl
  rcases List.mem_cons.mp haction with rfl | haction
  · exact ⟨rfl, fun _ _ _ => trivial⟩
  · obtain ⟨peer, -, rfl⟩ := List.mem_map.mp haction
    exact ⟨rfl, fun _ _ hsaved => hsaved⟩

theorem InStep.startPreVote (h : InStep n d) :
    Steady (fuel + 1) n.startPreVote.1 d n.startPreVote.2 := by
  have hrequests : ∀ (requests : NodeID → PreVoteRequest) (core : Node) (disk : Disk),
      ∀ action ∈ Action.resetElectionTimer :: n.peers.map fun peer =>
        Action.sendPreVoteRequest peer (requests peer),
      persist action = none ∧ Backed core disk action := by
    intro requests core disk action haction
    rcases List.mem_cons.mp haction with rfl | haction
    · exact ⟨rfl, trivial⟩
    · obtain ⟨peer, -, rfl⟩ := List.mem_map.mp haction
      exact ⟨rfl, trivial⟩
  unfold Node.startPreVote
  split
  · exact .done h
  · obtain ⟨k, hk⟩ : ∃ k : Node, k = { n with
        recentLeaderContact := false
        leaderID := []
        role := .preCandidate
        preVotes := {n.id} } := ⟨_, rfl⟩
    have hstanding : InStep k d := h.kept (by rw [hk]; rfl) (by rw [hk])
    dsimp only
    rw [← hk]
    split
    · exact .emitAll (hrequests _ _ _) hstanding.startElection
    · exact .all (hrequests _ _ _) hstanding

theorem InStep.heartbeatRound (h : InStep n d) :
    Steady fuel n.heartbeatRound.1 d n.heartbeatRound.2 := by
  unfold Node.heartbeatRound
  split
  · exact .done h
  · obtain ⟨k, hk⟩ : ∃ k : Node, k = { n with appendInFlight := fun _ => {} } := ⟨_, rfl⟩
    have hstanding : InStep k d := h.kept (by rw [hk]; rfl) (by rw [hk])
    dsimp only
    rw [← hk]
    refine hstanding.neutral (Node.ledger_sendAppendEntries 0)
      (Node.lastApplied_sendAppendEntries 0) fun action haction => ?_
    rcases List.mem_cons.mp haction with rfl | haction
    · exact ⟨rfl, fun _ _ => trivial⟩
    · exact neutral_sendAppendEntries k 0 action haction

theorem InStep.checkQuorum (h : InStep n d) :
    Steady fuel n.checkQuorum.1 d n.checkQuorum.2 := by
  unfold Node.checkQuorum
  split
  · exact .done h
  split
  · have hvote : (n.becomeFollower n.term []).ledger = n.ledger := by
      simp [Node.becomeFollower, Node.ledger]
    refine h.neutral hvote rfl fun action haction => ?_
    simp only [List.mem_cons, List.not_mem_nil, or_false] at haction
    rcases haction with rfl | rfl
    · exact ⟨rfl, fun _ _ => trivial⟩
    · exact ⟨rfl, fun _ _ => trivial⟩
  · have hstanding : InStep { n with activePeers := ∅ } d := h.kept rfl rfl
    refine .all (fun action haction => ?_) hstanding
    obtain rfl := List.mem_singleton.mp haction
    exact ⟨rfl, trivial⟩

/-! ## Elections -/

theorem InStep.stepsDown (h : InStep n d) (term : Nat) :
    Steady (fuel + 1) ((n.becomeFollower term []).persistHardState []).1 d
      ((n.becomeFollower term []).persistHardState []).2 := by
  refine h.adopts ?_ ?_ (by simp)
  · rfl
  · rfl

theorem InStep.handlePreVoteRequest (h : InStep n d) (request : PreVoteRequest) :
    Steady fuel (n.handlePreVoteRequest request).1 d (n.handlePreVoteRequest request).2 := by
  refine h.neutral rfl rfl fun action haction => ?_
  obtain rfl := List.mem_singleton.mp haction
  exact ⟨rfl, fun _ _ => trivial⟩

theorem InStep.handlePreVoteResponse (h : InStep n d) (response : PreVoteResponse) :
    Steady (fuel + 1) (n.handlePreVoteResponse response).1 d
      (n.handlePreVoteResponse response).2 := by
  unfold Node.handlePreVoteResponse
  split
  · exact h.stepsDown _
  split
  · exact .done h
  · have hstanding : InStep { n with preVotes := insert response.sender n.preVotes } d :=
      h.kept rfl rfl
    dsimp only
    split
    · exact .done hstanding
    · exact hstanding.startElection

theorem InStep.handleVoteRequest (h : InStep n d) (request : VoteRequest) :
    Steady (fuel + 1) (n.handleVoteRequest request).1 d (n.handleVoteRequest request).2 := by
  unfold Node.handleVoteRequest
  split
  · refine h.neutral rfl rfl fun action haction => ?_
    obtain rfl := List.mem_singleton.mp haction
    exact ⟨rfl, fun _ _ hgranted => by cases hgranted⟩
  next hterm =>
    dsimp only
    -- The core in the candidate's term, before it decides on the vote.
    generalize hk : (if decide (request.term > n.term) = true then
      n.becomeFollower request.term [] else n) = k
    have haccount : account k = account n := by
      rw [← hk]
      split <;> rfl
    have happlied : k.lastApplied = n.lastApplied := by
      rw [← hk]
      split <;> rfl
    generalize hgrant : ((k.votedFor == [] || k.votedFor == request.sender) &&
      k.candidateLogIsUpToDate request.lastLogTerm request.lastLogIndex) = grant
    cases grant with
    | true =>
        simp only [if_true, Bool.true_and]
        split
        · have hvoted : account { k with votedFor := request.sender } = account n := haccount
          refine h.adopts hvoted happlied fun action haction => ?_
          obtain rfl := List.mem_singleton.mp haction
          exact ⟨rfl, fun _ _ hsaved _ => hsaved⟩
        next hdurable =>
          -- The vote was cast and saved before.
          simp only [Bool.or_eq_true, Bool.not_eq_true', not_or, Bool.not_eq_false,
            decide_eq_true_eq] at hdurable
          obtain ⟨hsame, hvoted⟩ := hdurable
          rw [if_neg (by simpa using hsame)] at hk
          subst hk
          simp only [Node.voteIsDurable, Bool.and_eq_true, beq_iff_eq] at hvoted
          have hvote : n.votedFor = request.sender := h.durableVote.symm.trans hvoted.2
          refine .all (fun action haction => ?_) (h.kept ?_ rfl)
          · obtain rfl := List.mem_singleton.mp haction
            refine ⟨rfl, fun _ => ?_⟩
            rw [h.hardState, hvote]
          · simp only [Node.ledger, ← hvote]
    | false =>
        simp only [Bool.false_eq_true, if_false, Bool.false_and, Bool.or_false]
        split
        · refine h.adopts haccount happlied fun action haction => ?_
          obtain rfl := List.mem_singleton.mp haction
          exact ⟨rfl, fun _ _ _ hgranted => by cases hgranted⟩
        next hsame =>
          rw [if_neg hsame] at hk
          subst hk
          refine h.neutral rfl rfl fun action haction => ?_
          obtain rfl := List.mem_singleton.mp haction
          exact ⟨rfl, fun _ _ hgranted => by cases hgranted⟩

theorem InStep.leads (h : InStep n d) {entry : LogEntry}
    (hledger : m.ledger = (n.appendEntries [entry]).ledger)
    (happlied : m.lastApplied = n.lastApplied) :
    Steady (fuel + 1)
      (m.persistLog [entry]
        { purpose := .persistLeaderEntry, term := m.term, lastIndex := entry.index }).1 d
      (m.persistLog [entry]
        { purpose := .persistLeaderEntry, term := m.term, lastIndex := entry.index }).2 := by
  have hlast : entry.index = m.lastLogIndex := by
    have heq : m.lastLogIndex = (n.appendEntries [entry]).lastLogIndex :=
      (congrArg Ledger.lastLogIndex hledger :)
    rw [heq]
    simp [Node.appendEntries]
  exact h.appends (by simp) (.inl rfl) hledger happlied rfl hlast
    fun saved hsaved => hsaved.afterLeader rfl

theorem InStep.becomeLeader (h : InStep n d) :
    Steady (fuel + 1) n.becomeLeader.1 d n.becomeLeader.2 := by
  unfold Node.becomeLeader
  dsimp only
  refine .emitAll (fun action haction => ?_) ?_
  · simp only [List.mem_cons, List.not_mem_nil, or_false] at haction
    rcases haction with rfl | rfl | rfl
    · exact ⟨rfl, trivial⟩
    · exact ⟨rfl, trivial⟩
    · exact ⟨rfl, trivial⟩
  · refine h.leads ?_ ?_
    · rfl
    · rfl

theorem InStep.handleVoteResponse (h : InStep n d) (response : VoteResponse) :
    Steady (fuel + 1) (n.handleVoteResponse response).1 d (n.handleVoteResponse response).2 := by
  unfold Node.handleVoteResponse
  split
  · exact h.stepsDown _
  split
  · exact .done h
  · have hstanding : InStep { n with votes := insert response.sender n.votes } d := h.kept rfl rfl
    dsimp only
    split
    · exact .done hstanding
    · exact hstanding.becomeLeader

/-! ## Proposals and reads -/

theorem InStep.rejected (h : InStep n d) (proposalID : ProposalID) :
    Steady fuel n d [.proposalRejected proposalID n.leaderID] :=
  .emit rfl trivial (.done h)

theorem InStep.proposeEntry (h : InStep n d) (proposalID : ProposalID) (entry : LogEntry) :
    Steady (fuel + 1) (n.proposeEntry proposalID entry).1 d
      (n.proposeEntry proposalID entry).2 := by
  unfold Node.proposeEntry
  refine .emit rfl trivial (h.leads ?_ ?_)
  · rfl
  · rfl

theorem InStep.proposeSession (h : InStep n d) (proposal : ProposeSession) :
    Steady (fuel + 1) (n.proposeSession proposal).1 d (n.proposeSession proposal).2 := by
  unfold Node.proposeSession
  split
  · exact h.rejected _
  split
  · exact .done h
  · exact h.proposeEntry _ _

theorem InStep.proposeSet (h : InStep n d) (proposal : ProposeSet) :
    Steady (fuel + 1) (n.proposeSet proposal).1 d (n.proposeSet proposal).2 := by
  unfold Node.proposeSet
  split
  · exact h.rejected _
  · exact h.proposeEntry _ _

theorem InStep.proposeDelete (h : InStep n d) (proposal : ProposeDelete) :
    Steady (fuel + 1) (n.proposeDelete proposal).1 d (n.proposeDelete proposal).2 := by
  unfold Node.proposeDelete
  split
  · exact h.rejected _
  · exact h.proposeEntry _ _

theorem InStep.confirmRead (h : InStep n d) (readID : ReadID) :
    Steady fuel (n.confirmRead readID).1 d (n.confirmRead readID).2 := by
  unfold Node.confirmRead
  split
  · exact .emit rfl trivial (.done h)
  split
  · exact .emit rfl trivial (.done h)
  · have hstanding : ∀ reads, InStep { n with pendingReads := reads } d :=
      fun reads => h.kept rfl rfl
    exact (hstanding _).neutral (Node.ledger_sendAppendEntries readID)
      (Node.lastApplied_sendAppendEntries readID) (neutral_sendAppendEntries _ readID)

/-! ## Append traffic -/

theorem InStep.acceptEntries (h : InStep n d) {request : AppendEntries}
    {newEntries : List LogEntry} {truncateFrom : Nat}
    (hscan : n.entriesToAppend request.prevLogIndex request.entries =
      some (newEntries, truncateFrom)) :
    Steady (fuel + 2) (n.acceptEntries request newEntries truncateFrom).1 d
      (n.acceptEntries request newEntries truncateFrom).2 := by
  unfold Node.acceptEntries
  rcases Node.entriesToAppend_some hscan with ⟨rfl, rfl⟩ | ⟨hne, hcut⟩
  · rw [if_neg (by simp)]
    split
    · exact .done h
    · exact (h.advances (InStep.parked_success n _ _ _)).succ
  · rw [if_pos hne]
    dsimp only
    refine h.appends hne hcut ?_ ?_ ?_ ?_ fun saved hsaved => hsaved.afterFollower rfl rfl
    · rfl
    · unfold Node.appendEntries
      split <;> rfl
    · rfl
    · rfl

theorem neutral_rejectEntries (n : Node) (request : AppendEntries) (index : Nat) :
    ∀ action ∈ n.rejectEntries request index, Neutral action := by
  intro action haction
  obtain rfl := List.mem_singleton.mp haction
  exact ⟨rfl, fun _ _ hsuccess => by cases hsuccess⟩

theorem InStep.answerEntries (h : InStep n d) (request : AppendEntries) :
    Steady 2 (n.answerEntries request).1 d (n.answerEntries request).2 := by
  unfold Node.answerEntries
  split
  · exact h.neutral rfl rfl (neutral_rejectEntries n request _)
  split
  · exact h.neutral rfl rfl (neutral_rejectEntries n request _)
  next newEntries truncateFrom hscan => exact h.acceptEntries hscan

structure KeepsHardState (n m : Node) : Prop where
  term_eq : m.term = n.term
  vote_eq : m.votedFor = n.votedFor
  pending_eq : m.pendingHardState = n.pendingHardState

theorem answerEntries_keepsHardState (n : Node) (request : AppendEntries) :
    KeepsHardState n (n.answerEntries request).1 := by
  unfold Node.answerEntries
  split
  · exact ⟨rfl, rfl, rfl⟩
  split
  · exact ⟨rfl, rfl, rfl⟩
  unfold Node.acceptEntries
  split
  · dsimp only
    split <;> exact ⟨rfl, rfl, rfl⟩
  split
  · exact ⟨rfl, rfl, rfl⟩
  unfold Node.advanceFollowerCommit
  dsimp only
  split
  · exact ⟨rfl, rfl, rfl⟩
  · have hledger := Node.ledger_applyThrough (n := n) n.durableCommitIndex
    exact ⟨(congrArg Ledger.term hledger :), (congrArg Ledger.votedFor hledger :),
      (congrArg Ledger.pendingHardState hledger :)⟩

theorem answerSnapshot_keepsHardState (n : Node) (request : InstallSnapshot) :
    KeepsHardState n (n.answerSnapshot request).1 := by
  unfold Node.answerSnapshot
  split
  · exact ⟨rfl, rfl, rfl⟩
  · exact ⟨rfl, rfl, rfl⟩

theorem InStep.follows (h : InStep n d) {term : Nat} (hle : n.term ≤ term) (leader : NodeID)
    {answer : Node → Node × List Action}
    (hhardened : ∀ k, answer (Runtime.hardened k) = (Runtime.hardened (answer k).1, (answer k).2))
    (hkeeps : ∀ k, KeepsHardState k (answer k).1)
    (hanswer : ∀ k disk, InStep k disk → Steady 2 (answer k).1 disk (answer k).2) :
    Steady 3
      ((answer (n.recognizeLeader term leader)).1.afterTermChange (decide (term > n.term))
        (.resetElectionTimer :: (answer (n.recognizeLeader term leader)).2)).1 d
      ((answer (n.recognizeLeader term leader)).1.afterTermChange (decide (term > n.term))
        (.resetElectionTimer :: (answer (n.recognizeLeader term leader)).2)).2 := by
  rcases Nat.eq_or_lt_of_le hle with rfl | hlt
  · have hstanding : InStep (n.recognizeLeader n.term leader) d := by
      refine h.kept (Node.ledger_recognizeLeader leader) ?_
      simp only [Node.recognizeLeader, lt_irrefl, if_false]
    simp only [Node.afterTermChange, gt_iff_lt, lt_irrefl, decide_false, Bool.false_eq_true,
      if_false]
    exact .emit rfl trivial (hanswer _ _ hstanding).succ
  · have haccount : account (n.recognizeLeader term leader) = account n := by
      simp only [Node.recognizeLeader, gt_iff_lt, if_pos hlt]
      rfl
    have happlied : (n.recognizeLeader term leader).lastApplied = n.lastApplied := by
      simp only [Node.recognizeLeader, gt_iff_lt, if_pos hlt]
      rfl
    have hstanding := h.hardened haccount happlied
    have hnone : (n.recognizeLeader term leader).pendingHardState = fun _ => none :=
      (congrArg Ledger.pendingHardState haccount :).trans h.noHardState
    generalize n.recognizeLeader term leader = k at hstanding hnone
    have hkept := hkeeps k
    -- The answer is that of the core whose hard state is durable.
    have hsteady := hanswer _ _ hstanding
    rw [hhardened k, ← hkept.term_eq, ← hkept.vote_eq] at hsteady
    simp only [Node.afterTermChange, gt_iff_lt, hlt, decide_true, if_true]
    have hdeferred : Steady 2 (Runtime.hardened (answer k).1)
        { d with hardState := ⟨(answer k).1.term, (answer k).1.votedFor⟩ }
        ([] ++ .resetElectionTimer :: (answer k).2) := .emit rfl trivial hsteady
    have hnext := steady_hardState (hkept.pending_eq.trans hnone) hdeferred
    rwa [List.append_nil] at hnext

theorem InStep.handleAppendEntries (h : InStep n d) (request : AppendEntries) :
    Steady 3 (n.handleAppendEntries request).1 d (n.handleAppendEntries request).2 := by
  unfold Node.handleAppendEntries
  split
  · refine h.neutral rfl rfl fun action haction => ?_
    obtain rfl := List.mem_singleton.mp haction
    exact ⟨rfl, fun _ _ hsuccess => by cases hsuccess⟩
  next hterm =>
    exact h.follows (Nat.not_lt.mp hterm) request.sender
      (fun k => answerEntries_hardened k request) (fun k => answerEntries_keepsHardState k request)
      fun k disk hk => hk.answerEntries request

theorem ledger_advanceLeaderCommit {index : Nat} (hcandidate :
    n.commitCandidate n.lastLogIndex = some index) :
    n.advanceLeaderCommit = ({ n with commitIndex := index }, true) := by
  rw [Node.advanceLeaderCommit, hcandidate]

theorem InStep.commitsAsLeader (h : InStep n d) {index : Nat}
    (hcandidate : n.commitCandidate n.lastLogIndex = some index)
    (response : AppendEntriesResponse) :
    Steady (fuel + 1)
      (((({ n with commitIndex := index } : Node).sendAppendEntries 0).1.persistCommit
        (({ n with commitIndex := index } : Node).sendAppendEntries 0).2).1.acknowledgeRead
          response).1 d
      (((({ n with commitIndex := index } : Node).sendAppendEntries 0).1.persistCommit
        (({ n with commitIndex := index } : Node).sendAppendEntries 0).2).2 ++
      (((({ n with commitIndex := index } : Node).sendAppendEntries 0).1.persistCommit
        (({ n with commitIndex := index } : Node).sendAppendEntries 0).2).1.acknowledgeRead
          response).2) := by
  obtain ⟨hlt, hle, -⟩ := commitCandidate_some hcandidate
  have hledger := Node.ledger_sendAppendEntries (n := { n with commitIndex := index }) 0
  have happlied := Node.lastApplied_sendAppendEntries (n := { n with commitIndex := index }) 0
  have hneutral := neutral_sendAppendEntries { n with commitIndex := index } 0
  generalize ({ n with commitIndex := index } : Node).sendAppendEntries 0 = broadcast
    at hledger happlied hneutral
  obtain ⟨hswap, hswap'⟩ := acknowledgeRead_persistCommit broadcast.1 broadcast.2 response
  have hacknowledged := neutral_acknowledgeRead broadcast.1 response
  have hledger' := (Node.ledger_acknowledgeRead (n := broadcast.1) response).trans hledger
  have happlied' := (Node.lastApplied_acknowledgeRead (n := broadcast.1) response).trans happlied
  rw [hswap, hswap']
  generalize broadcast.1.acknowledgeRead response = acknowledged at hacknowledged hledger' happlied'
  -- The core as it would be without the new commit index.
  have hbefore : InStep { acknowledged.1 with commitIndex := n.commitIndex } d := by
    refine h.kept ?_ happlied'
    simp only [Node.ledger, Ledger.mk.injEq] at hledger' ⊢
    simp only [hledger', and_self]
  have hindex : acknowledged.1.commitIndex = index := (congrArg Ledger.commitIndex hledger' :)
  have hlast : acknowledged.1.lastLogIndex = n.lastLogIndex :=
    (congrArg Ledger.lastLogIndex hledger' :)
  have hcommits : Steady (fuel + 1) _ d _ :=
    hbefore.commits hlt.le (hle.trans hlast.ge)
      (fun action haction => (hneutral action haction).parked)
      (fun action haction => (hacknowledged action haction).parked)
  have hsame : ({ acknowledged.1 with commitIndex := index } : Node) = acknowledged.1 := by
    rw [← hindex]
  exact hsame ▸ hcommits

theorem InStep.handleAppendEntriesResponse (h : InStep n d) (response : AppendEntriesResponse) :
    Steady (fuel + 1) (n.handleAppendEntriesResponse response).1 d
      (n.handleAppendEntriesResponse response).2 := by
  unfold Node.handleAppendEntriesResponse
  split
  · exact h.stepsDown _
  split
  · exact .done h
  dsimp only
  split
  · exact .done h
  have hstanding : InStep (n.recordResponse response) d := by
    refine h.kept (Node.ledger_recordResponse response) ?_
    unfold Node.recordResponse
    split <;> rfl
  generalize n.recordResponse response = k at hstanding
  unfold Node.continueReplication
  cases hcandidate : k.commitCandidate k.lastLogIndex with
  | some index =>
      rw [ledger_advanceLeaderCommit hcandidate]
      exact hstanding.commitsAsLeader hcandidate response
  | none =>
      have hadvanced : k.advanceLeaderCommit = (k, false) := by
        rw [Node.advanceLeaderCommit, hcandidate]
      rw [hadvanced]
      simp only [Bool.false_eq_true, if_false]
      split
      · refine hstanding.neutral ?_ ?_ fun action haction => ?_
        · rw [Node.ledger_acknowledgeRead, Node.ledger_sendAppendEntriesTo]
        · rw [Node.lastApplied_acknowledgeRead, Node.lastApplied_sendAppendEntriesTo]
        · rcases List.mem_append.mp haction with haction | haction
          · exact neutral_sendAppendEntriesTo _ _ _ action haction
          · exact neutral_acknowledgeRead _ _ action haction
      · exact hstanding.neutral (Node.ledger_acknowledgeRead response)
          (Node.lastApplied_acknowledgeRead response) (neutral_acknowledgeRead k response)

theorem InStep.handleAppendEntriesFailed (h : InStep n d) (dest : NodeID) (requestID : Nat) :
    Steady fuel (n.handleAppendEntriesFailed dest requestID).1 d
      (n.handleAppendEntriesFailed dest requestID).2 := by
  refine .done (h.kept ?_ ?_)
  · unfold Node.handleAppendEntriesFailed
    dsimp only
    repeat' split
    all_goals rfl
  · unfold Node.handleAppendEntriesFailed
    dsimp only
    repeat' split
    all_goals rfl

/-! ## Snapshots -/

theorem InStep.compactLog (h : InStep n d) (index term : Nat) :
    InStep (n.compactLog index term) d := by
  have hcommit := h.ordered.commit_le
  have hcontiguous := h.ordered.contiguous.compactLog (h.ordered.applied_le.trans hcommit) index term
  unfold Node.compactLog at hcontiguous ⊢
  split at hcontiguous
  next hskip =>
    rw [if_pos hskip]
    exact h
  next hcompacts =>
    rw [if_neg hcompacts]
    rw [not_or, not_or, Nat.not_le, Nat.not_lt] at hcompacts
    obtain ⟨hlower, hupper, -⟩ := hcompacts
    have hbase := h.mirrors.base_le
    exact
      { h with
        ordered := ⟨hcontiguous, hupper, h.ordered.applied_le, hcommit⟩
        mirrors := by
          refine ⟨hbase.trans hlower.le, ?_, h.mirrors.last_eq⟩
          simp only [h.mirrors.log_eq, List.drop_drop]
          congr 1
          omega }

theorem save_snapshot {index term : Nat} {retainSuffix : Bool} {saved : Disk}
    (h : Disk.saveAll d [.snapshot index term retainSuffix] = some saved) :
    0 < index ∧ (retainSuffix = false → d.commitIndex ≤ index) ∧
      saved = { d with
        log := if retainSuffix then d.log.drop (index - d.snapshotIndex) else []
        commitIndex := max d.commitIndex index
        snapshotIndex := index
        snapshotTerm := term } := by
  simp only [Disk.saveAll, Disk.save] at h
  split at h
  · simp at h
  next haccepted =>
    simp only [not_or, not_and, Nat.not_lt] at haccepted
    exact ⟨Nat.pos_of_ne_zero haccepted.1, haccepted.2.2.2, (Option.some.inj h).symm⟩

theorem installSnapshot_frame (n : Node) (request : InstallSnapshot) (retainSuffix : Bool) :
    ∃ log lastLogIndex lastLogTerm durableLogIndex,
      n.installSnapshot request retainSuffix = { n with
        log := log
        lastLogIndex := lastLogIndex
        lastLogTerm := lastLogTerm
        durableLogIndex := durableLogIndex
        logBaseIndex := request.snapshotIndex
        logBaseTerm := request.snapshotTerm
        commitIndex := max n.commitIndex request.snapshotIndex
        durableCommitIndex := max n.durableCommitIndex request.snapshotIndex
        lastApplied := request.snapshotIndex } := by
  unfold Node.installSnapshot
  cases retainSuffix with
  | true =>
      simp only [if_true]
      split
      · exact ⟨_, _, _, _, rfl⟩
      · exact ⟨_, _, _, _, rfl⟩
  | false => exact ⟨_, _, _, _, rfl⟩

theorem InStep.installs (h : InStep n d) {request : InstallSnapshot} {retainSuffix : Bool}
    (habove : n.logBaseIndex < request.snapshotIndex)
    (hretains : retainSuffix = true → request.snapshotIndex ≤ n.lastLogIndex ∧
      n.termAt request.snapshotIndex = request.snapshotTerm)
    {saved : Disk} (hsaved : Disk.saveAll d
      [.snapshot request.snapshotIndex request.snapshotTerm retainSuffix] = some saved) :
    InStep (n.installSnapshot request retainSuffix) saved := by
  obtain ⟨hpos, hdiscards, rfl⟩ := save_snapshot hsaved
  have hdurable := n.installSnapshot_durableLogIndex request retainSuffix h.durableLog
  have hbase := h.mirrors.base_le
  have hlength := h.mirrors.last_eq
  simp only [Disk.lastIndex] at hlength
  -- The log after the Snapshot, and what the WAL keeps of it.
  obtain ⟨hcontiguous, hlog, hlast, hcommit⟩ :
      (n.installSnapshot request retainSuffix).Contiguous ∧
      (n.installSnapshot request retainSuffix).log =
        (if retainSuffix then d.log.drop (request.snapshotIndex - d.snapshotIndex) else []) ∧
      request.snapshotIndex +
          (if retainSuffix then d.log.drop (request.snapshotIndex - d.snapshotIndex)
            else []).length = (n.installSnapshot request retainSuffix).lastLogIndex ∧
      max n.commitIndex request.snapshotIndex ≤
        (n.installSnapshot request retainSuffix).lastLogIndex := by
    cases retainSuffix with
    | true =>
        obtain ⟨hinside, hterm⟩ := hretains rfl
        obtain ⟨hcontiguous, hlast, hlog⟩ :=
          h.ordered.contiguous.installSnapshot_retained habove.le hinside hterm
        refine ⟨hcontiguous, ?_, ?_, ?_⟩
        · rw [hlog, h.mirrors.log_eq, List.drop_drop, if_pos rfl]
          congr 1
          omega
        · rw [hlast, if_pos rfl, List.length_drop]
          omega
        · rw [hlast]
          exact max_le h.ordered.commit_le hinside
    | false =>
        refine ⟨Node.Contiguous.installSnapshot_discarded n hpos, rfl, rfl, ?_⟩
        exact max_le (h.commit_eq ▸ hdiscards rfl) le_rfl
  obtain ⟨log, lastLogIndex, lastLogTerm, durableLogIndex, hframe⟩ :=
    installSnapshot_frame n request retainSuffix
  rw [hframe] at hcontiguous hlog hlast hcommit hdurable ⊢
  exact
    { ordered := ⟨hcontiguous, le_rfl, le_max_right _ _, hcommit⟩
      mirrors := ⟨le_rfl, by simpa using hlog, hlast⟩
      commit_eq := by simp only [h.commit_eq]
      hardState := h.hardState
      durableTerm := h.durableTerm
      durableVote := h.durableVote
      durableCommit := by simp only [h.durableCommit]
      durableLog := hdurable
      noHardState := h.noHardState
      noLog := h.noLog
      noCommit := h.noCommit
      noSnapshot := h.noSnapshot }

theorem InStep.answerSnapshot (h : InStep n d) (request : InstallSnapshot) :
    Steady 2 (n.answerSnapshot request).1 d (n.answerSnapshot request).2 := by
  have hterm : d.hardState.term = n.term := by rw [h.hardState]
  unfold Node.answerSnapshot
  split
  next hinstalls =>
    obtain ⟨-, -, habove⟩ := hinstalls
    dsimp only
    generalize hretain : (decide (request.snapshotIndex ≤ n.lastLogIndex) &&
      n.termAt request.snapshotIndex == request.snapshotTerm) = retainSuffix
    have hretains : retainSuffix = true → request.snapshotIndex ≤ n.lastLogIndex ∧
        n.termAt request.snapshotIndex = request.snapshotTerm := by
      rintro rfl
      simpa using hretain
    have hstep := step_snapshotPersisted n request retainSuffix h.noSnapshot
    have hstanding : InStep { n with
        nextSnapshotPersistence := n.nextSnapshotPersistence + 1 } d := h.kept rfl rfl
    refine .save rfl (fun _ _ => ?_) fun saved hsaved => ?_
    · change (n.persistSnapshot request retainSuffix).1.InRange
      have hordered : (n.persistSnapshot request retainSuffix).1.Ordered :=
        ⟨⟨h.ordered.contiguous.numbered, h.ordered.contiguous.lastIndex,
          h.ordered.contiguous.lastTerm, h.ordered.contiguous.start⟩, h.ordered.base_le,
          h.ordered.applied_le, h.ordered.commit_le⟩
      refine hordered.inRange h.durableCommit.le fun id pending hsome => ?_
      change n.pendingCommit id = some pending at hsome
      rw [h.noCommit] at hsome
      cases hsome
    · have hinstalled := hstanding.installs habove hretains hsaved
      obtain ⟨-, -, rfl⟩ := save_snapshot hsaved
      change Steady 1 ((n.persistSnapshot request retainSuffix).1.step _).1 _
        ([] ++ ((n.persistSnapshot request retainSuffix).1.step _).2)
      rw [hstep]
      refine .emit rfl trivial (.emit rfl ⟨?_, fun _ => le_max_right _ _⟩ (.done hinstalled))
      rw [hinstalled.hardState]
  next hanswers =>
    refine .emit rfl ⟨hterm, fun hdone => ?_⟩ (.done h)
    simp only [Bool.and_eq_true, decide_eq_true_eq] at hdone
    rw [h.commit_eq]
    exact hdone.2.trans (h.ordered.base_le.trans h.ordered.applied_le)

theorem InStep.handleInstallSnapshot (h : InStep n d) (request : InstallSnapshot) :
    Steady 3 (n.handleInstallSnapshot request).1 d (n.handleInstallSnapshot request).2 := by
  unfold Node.handleInstallSnapshot
  split
  · refine .emit rfl ⟨?_, fun hdone => by cases hdone⟩ (.done h)
    rw [h.hardState]
  next hterm =>
    exact h.follows (Nat.not_lt.mp hterm) request.sender
      (fun k => answerSnapshot_hardened k request)
      (fun k => answerSnapshot_keepsHardState k request)
      fun k disk hk => hk.answerSnapshot request

theorem InStep.handleInstallSnapshotResponse (h : InStep n d)
    (response : InstallSnapshotResponse) :
    Steady (fuel + 1) (n.handleInstallSnapshotResponse response).1 d
      (n.handleInstallSnapshotResponse response).2 := by
  unfold Node.handleInstallSnapshotResponse
  split
  · exact h.stepsDown _
  split
  · exact .done h
  split
  · exact .done (h.kept rfl rfl)
  split
  · exact .emit rfl trivial (.done h)
  · have hstanding : ∀ snapshotInFlight matchIndex nextIndex, InStep { n with
        snapshotInFlight := snapshotInFlight
        matchIndex := matchIndex
        nextIndex := nextIndex } d := fun _ _ _ => h.kept rfl rfl
    exact (hstanding _ _ _).neutral (Node.ledger_sendAppendEntriesTo ..)
      (Node.lastApplied_sendAppendEntriesTo ..) (neutral_sendAppendEntriesTo _ _ _)

/-! ## Steps -/

/-- Whatever happens, the core and the WAL are in step again when the loop is done. -/
theorem InStep.step (h : InStep n d) (event : Event) :
    Steady 3 (n.step event).1 d (n.step event).2 := by
  cases event with
  | electionTimeout => exact h.startPreVote
  | heartbeatTimeout => exact h.heartbeatRound
  | checkQuorumTimeout => exact h.checkQuorum
  | hardStatePersisted id =>
      simp only [Node.step, Node.hardStatePersisted, h.noHardState]
      exact .done h
  | logEntriesPersisted id =>
      simp only [Node.step, Node.logEntriesPersisted, h.noLog]
      exact .done h
  | commitIndexPersisted id =>
      simp only [Node.step, Node.commitIndexPersisted, h.noCommit]
      exact .done h
  | snapshotPersisted id =>
      simp only [Node.step, Node.snapshotPersisted, h.noSnapshot]
      exact .done h
  | recoverCommitted =>
      obtain ⟨happlied, hactions⟩ := h.applies n.durableCommitIndex h.durableCommit.le
      exact .all (fun action haction =>
        ⟨(hactions action haction).1, (hactions action haction).2 _⟩) happlied
  | snapshotCompacted index term => exact .done (h.compactLog index term)
  | proposeSession proposal => exact h.proposeSession proposal
  | proposeSet proposal => exact h.proposeSet proposal
  | proposeDelete proposal => exact h.proposeDelete proposal
  | confirmRead readID => exact h.confirmRead readID
  | preVoteRequest request => exact h.handlePreVoteRequest request
  | preVoteResponse response => exact h.handlePreVoteResponse response
  | voteRequest request => exact h.handleVoteRequest request
  | voteResponse response => exact h.handleVoteResponse response
  | appendEntries request => exact h.handleAppendEntries request
  | appendEntriesResponse response => exact h.handleAppendEntriesResponse response
  | appendEntriesFailed dest requestID => exact h.handleAppendEntriesFailed dest requestID
  | installSnapshot request => exact h.handleInstallSnapshot request
  | installSnapshotResponse response => exact h.handleInstallSnapshotResponse response

end QuorumKV.Runtime
