import Mathlib.Tactic.IntervalCases
import QuorumKV.Raft.Merge

/-!
# Repairing a Follower's log

A new Leader finds the position up to which a Follower's log agrees with its own by
probing: a refusal hints at the term that stands in the way, and the Leader goes on
before it.  Each probe lies strictly before the last one, because both logs take their
entries of a term from the log of the one Leader of that term.  Once a probe is
accepted, batches follow until the Follower has the whole log.
-/

namespace QuorumKV.Raft

open Foundation

/-! ## Writes that complete at once -/

def Action.completion : Action → Option Event
  | .persistHardState id _ _ => some (.hardStatePersisted id)
  | .persistLogEntries id _ _ => some (.logEntriesPersisted id)
  | .persistCommitIndex id _ => some (.commitIndexPersisted id)
  | .persistSnapshot id _ _ _ => some (.snapshotPersisted id)
  | _ => none

namespace Node

def complete : Node → List Action → Node × List Action
  | n, [] => (n, [])
  | n, action :: actions =>
      match action.completion with
      | none => ((n.complete actions).1, action :: (n.complete actions).2)
      | some event =>
          let done := n.step event
          ((done.1.complete actions).1, done.2 ++ (done.1.complete actions).2)

def settle : Nat → Node × List Action → Node × List Action
  | 0, result => result
  | rounds + 1, result => settle rounds (result.1.complete result.2)

def answer (n : Node) (request : AppendEntries) : Node × List Action :=
  settle 3 (n.handleAppendEntries request)

end Node

/-! ## The exchange -/

def Action.appendRequest : Action → Option AppendEntries
  | .sendAppendEntries _ request => some request
  | _ => none

def Action.appendResponse : Action → Option AppendEntriesResponse
  | .sendAppendEntriesResponse _ response => some response
  | _ => none

structure Exchange where
  leader : Node
  follower : Node

/-- One round: a request, the Follower's answer, and what the Leader learns from it. -/
structure Round where
  request : AppendEntries
  response : AppendEntriesResponse
  next : Exchange

def Exchange.round (x : Exchange) : Option Round :=
  let sent := x.leader.sendAppendEntriesTo x.follower.id 0
  match sent.2.findSome? Action.appendRequest with
  | none => none
  | some request =>
      let answered := x.follower.answer request
      match answered.2.findSome? Action.appendResponse with
      | none => none
      | some response =>
          some
            { request := request
              response := response
              next := ⟨sent.1.recordResponse response, answered.1⟩ }

def Exchange.after (x : Exchange) : Nat → Option Exchange
  | 0 => some x
  | rounds + 1 => (x.after rounds).bind fun y => y.round.map Round.next

namespace Node

variable {n : Node} {log : List LogEntry}

/-! ## Settling -/

theorem complete_quiet {actions : List Action} (h : ∀ action ∈ actions, action.completion = none)
    (n : Node) : n.complete actions = (n, actions) := by
  induction actions with
  | nil => rfl
  | cons action actions ih =>
      rw [complete, h action (by simp), ih fun other hother => h other (by simp [hother])]

theorem settle_quiet {actions : List Action} (h : ∀ action ∈ actions, action.completion = none)
    (n : Node) (rounds : Nat) : settle rounds (n, actions) = (n, actions) := by
  induction rounds with
  | zero => rfl
  | succ rounds ih => rw [settle, complete_quiet h, ih]

theorem settle_single {action : Action} {event : Event} (h : action.completion = some event)
    (n : Node) (rounds : Nat) : settle (rounds + 1) (n, [action]) = settle rounds (n.step event) := by
  simp only [settle, complete, h, List.append_nil]

theorem settle_cons {action : Action} (h : action.completion = none) (rounds : Nat) (n : Node)
    (actions : List Action) :
    settle rounds (n, action :: actions) =
      ((settle rounds (n, actions)).1, action :: (settle rounds (n, actions)).2) := by
  induction rounds generalizing n actions with
  | zero => rfl
  | succ rounds ih =>
      simp only [settle, complete, h]
      exact ih _ _

def withHardState (n : Node) (next : Nat) (pending : Nat → Option PendingHardStatePersistence)
    (term : Nat) (votedFor : NodeID) : Node :=
  { n with
    nextHardStatePersistence := next
    pendingHardState := pending
    durableTerm := term
    durableVotedFor := votedFor }

structure Stands (n : Node) (id : NodeID) (log : List LogEntry) : Prop where
  id_eq : n.id = id
  holds : n.Holds log
  base : n.logBaseIndex = 0
  durable : n.durableLogIndex = log.length
  commit_le : n.commitIndex ≤ log.length

theorem Stands.of_ledger {m : Node} {id : NodeID} (h : n.Stands id log)
    (hledger : m.ledger = n.ledger) : m.Stands id log := by
  refine ⟨?_, h.holds.of_ledger hledger, ?_, ?_, ?_⟩
  · exact (congrArg Ledger.id hledger :).trans h.id_eq
  · exact (congrArg Ledger.logBaseIndex hledger :).trans h.base
  · exact (congrArg Ledger.durableLogIndex hledger :).trans h.durable
  · exact (congrArg Ledger.commitIndex hledger :).trans_le h.commit_le

structure Responds (id : NodeID) (log : List LogEntry) (term : Nat)
    (response : AppendEntriesResponse) (result : Node × List Action) : Prop where
  stands : result.1.Stands id log
  term_eq : result.1.term = term
  sent : result.2.findSome? Action.appendResponse = some response

section Settling

variable {id : NodeID} {next : Nat} {pending : Nat → Option PendingHardStatePersistence}
  {term : Nat} {votedFor : NodeID}

theorem Stands.withHardState (h : n.Stands id log) :
    (n.withHardState next pending term votedFor).Stands id log :=
  ⟨h.id_eq, h.holds.of_parts rfl, h.base, h.durable, h.commit_le⟩

theorem Stands.responds {m : Node} (h : m.Stands id log) {current : Nat}
    (hterm : m.term = current) {index : Nat} {actions : List Action}
    (happlies : ∀ action ∈ actions, n.Applies index action) (dest : NodeID)
    (response : AppendEntriesResponse) (rounds : Nat) :
    Responds id log current response
      (settle rounds (m, actions ++ [.sendAppendEntriesResponse dest response])) := by
  have hquiet : ∀ action ∈ actions ++ [.sendAppendEntriesResponse dest response],
      action.completion = none := by
    intro action haction
    rcases List.mem_append.mp haction with haction | haction
    · cases happlies action haction <;> rfl
    · obtain rfl := List.mem_singleton.mp haction
      rfl
  have hsilent : actions.findSome? Action.appendResponse = none := by
    rw [List.findSome?_eq_none_iff]
    intro action haction
    cases happlies action haction <;> rfl
  rw [settle_quiet hquiet]
  refine ⟨h, hterm, ?_⟩
  rw [List.findSome?_append, hsilent]
  rfl

theorem Stands.advances (h : n.Stands id log) (dest : NodeID) (response : AppendEntriesResponse)
    (leaderCommit rounds next : Nat) (pending : Nat → Option PendingHardStatePersistence)
    (term : Nat) (votedFor : NodeID) :
    Responds id log n.term response (settle (rounds + 1)
      ((n.advanceFollowerCommit leaderCommit
          [.sendAppendEntriesResponse dest response]).1.withHardState next pending term votedFor,
        (n.advanceFollowerCommit leaderCommit
          [.sendAppendEntriesResponse dest response]).2)) := by
  unfold Node.advanceFollowerCommit
  dsimp only
  split
  · -- The commit index is written first, and the response is parked behind it.
    simp only [persistCommit]
    rw [settle_single rfl]
    simp only [step, commitIndexPersisted, Node.withHardState, Function.update_self,
      completeCommit]
    generalize hm : ({ n with
      commitIndex := min leaderCommit n.lastLogIndex
      durableTerm := term
      durableVotedFor := votedFor
      nextHardStatePersistence := next
      pendingHardState := pending
      durableCommitIndex := max n.durableCommitIndex (min leaderCommit n.lastLogIndex)
      nextCommitPersistence := n.nextCommitPersistence + 1
      pendingCommit := Function.update (Function.update n.pendingCommit
        (n.nextCommitPersistence + 1)
        (some ⟨min leaderCommit n.lastLogIndex, [.sendAppendEntriesResponse dest response]⟩))
        (n.nextCommitPersistence + 1) none } : Node) = m
    have hstands : m.Stands id log := by
      rw [← hm]
      exact ⟨h.id_eq, h.holds.of_parts rfl, h.base, h.durable,
        h.holds.lastIndex ▸ Nat.min_le_right _ _⟩
    have hterm : m.term = n.term := by rw [← hm]
    have hledger := ledger_applyThrough (n := m) (min leaderCommit n.lastLogIndex)
    exact (hstands.of_ledger hledger).responds ((congrArg Ledger.term hledger).trans hterm)
      (m.applyThrough_applies (min leaderCommit n.lastLogIndex)) dest response rounds
  · have hledger := ledger_applyThrough (n := n) n.durableCommitIndex
    exact (h.of_ledger hledger).withHardState.responds (congrArg Ledger.term hledger)
      (n.applyThrough_applies n.durableCommitIndex) dest response (rounds + 1)

theorem logs (entries : List LogEntry) (written : PendingLogPersistence)
    (hid : n.id = id) (hholds : n.Holds log) (hbase : n.logBaseIndex = 0)
    (hdurable : n.durableLogIndex ≤ log.length) (hcommit : n.commitIndex ≤ log.length)
    (hpurpose : written.purpose = .persistFollowerAppend) (hterm : n.term = written.term)
    (hrole : n.role = .follower) (hleader : n.leaderID = written.leader)
    (hlast : written.lastIndex = log.length) (rounds : Nat) :
    Responds id log n.term
      ⟨n.id, n.term, written.requestID, true, written.lastIndex, 0, 0, written.readID⟩
      (settle (rounds + 2) ((n.persistLog entries written).1.withHardState next pending term votedFor,
        (n.persistLog entries written).2)) := by
  simp only [persistLog]
  rw [settle_single rfl]
  generalize hm : ({ n with
    durableLogIndex := max n.durableLogIndex written.lastIndex
    durableTerm := term
    durableVotedFor := votedFor
    nextHardStatePersistence := next
    pendingHardState := pending
    nextLogPersistence := n.nextLogPersistence + 1
    pendingLog := Function.update (Function.update n.pendingLog (n.nextLogPersistence + 1)
      (some written)) (n.nextLogPersistence + 1) none } : Node) = m
  have hstep : (({ n with
      nextLogPersistence := n.nextLogPersistence + 1
      pendingLog := Function.update n.pendingLog (n.nextLogPersistence + 1) (some written)
      } : Node).withHardState next pending term votedFor).step
        (.logEntriesPersisted (n.nextLogPersistence + 1)) =
      m.advanceFollowerCommit written.leaderCommit (m.appendEntriesResponse written.leader
        written.requestID true written.lastIndex 0 0 written.readID) := by
    rw [← hm]
    obtain ⟨purpose, _, _, _, _, _, _, _⟩ := written
    cases hpurpose
    simp only [step, logEntriesPersisted, Node.withHardState, Function.update_self, completeLog]
    refine if_neg ?_
    simp only at hterm hleader
    simp [hterm, hrole, hleader]
  have hstands : m.Stands id log := by
    rw [← hm]
    exact ⟨hid, hholds.of_parts rfl, hbase, by simp only [hlast]; omega, hcommit⟩
  have hcurrentTerm : m.term = n.term := by rw [← hm]
  have hself : m.id = n.id := by rw [← hm]
  rw [hstep, appendEntriesResponse, ← hcurrentTerm, ← hself]
  exact hstands.advances _ _ _ _ _ _ _ _

end Settling

/-! ## The Follower's answer -/

section Answer

variable {id : NodeID} {leaderLog : List LogEntry} {request : AppendEntries}

def cut (n : Node) (truncateFrom : Nat) : Node :=
  if truncateFrom ≠ 0 then n.truncateLog truncateFrom else n

theorem Stands.accepts (h : n.Stands id log) (hnumbered : Numbered log)
    (hrole : n.role = .follower) (hleader : n.leaderID = request.sender)
    (hcutFrom : CutFrom leaderLog n.term request) (hleaderNumbered : Numbered leaderLog)
    (hmatching : Matching LogEntry.term log leaderLog)
    (hmatches : n.matchesAt request.prevLogIndex request.prevLogTerm = true)
    {offset truncateFrom : Nat} (hwithin : offset < request.entries.length)
    (hreaches : request.prevLogIndex + offset ≤ log.length)
    (huncommitted : n.commitIndex ≤ request.prevLogIndex + offset)
    (hagree : ∀ before entry, before < offset → request.entries[before]? = some entry →
      n.termAt (request.prevLogIndex + 1 + before) = entry.term)
    (htruncate : truncateFrom = request.prevLogIndex + 1 + offset ∨
      (truncateFrom = 0 ∧ request.prevLogIndex + offset = log.length)) (rounds next : Nat)
    (pending : Nat → Option PendingHardStatePersistence) (term : Nat) (votedFor : NodeID) :
    ∃ response : AppendEntriesResponse, response.sender = id ∧ response.success = true ∧
      response.matchIndex = request.prevLogIndex + request.entries.length ∧
      Responds id (leaderLog.take (request.prevLogIndex + request.entries.length)) n.term response
        (settle (rounds + 2)
          ((n.acceptEntries request (request.entries.drop offset) truncateFrom).1.withHardState
              next pending term votedFor,
            (n.acceptEntries request (request.entries.drop offset) truncateFrom).2)) := by
  have hbase : n.logBaseIndex ≤ n.commitIndex := h.base.trans_le (Nat.zero_le _)
  have htracks : n.Tracks log leaderLog := ⟨h.holds, hnumbered, hbase, h.commit_le, hmatching⟩
  obtain ⟨-, hspliced⟩ := htracks.splice_eq hcutFrom hmatches hwithin hreaches huncommitted hagree
  obtain ⟨-, hholds⟩ := acceptEntries_spliced h.holds hnumbered
    (hcutFrom.consecutive hleaderNumbered) hwithin hreaches hbase huncommitted htruncate
  have hlength := splice_length hreaches hwithin.le
  rw [hspliced] at hholds hlength
  have hne : request.entries.drop offset ≠ [] := by
    rw [Ne, List.drop_eq_nil_iff, Nat.not_le]
    exact hwithin
  obtain ⟨m, hm⟩ : ∃ m, (n.cut truncateFrom).appendEntries (request.entries.drop offset) = m :=
    ⟨_, rfl⟩
  obtain ⟨written, hwritten⟩ : ∃ written : PendingLogPersistence, written =
      { purpose := .persistFollowerAppend
        term := request.term
        leader := request.sender
        truncateFrom := truncateFrom
        lastIndex := m.lastLogIndex
        leaderCommit := request.leaderCommit
        readID := request.readID
        requestID := request.requestID } := ⟨_, rfl⟩
  have haccepted : n.acceptEntries request (request.entries.drop offset) truncateFrom =
      m.persistLog (request.entries.drop offset) written := by
    rw [acceptEntries, if_pos hne, hwritten, ← hm]
    rfl
  rw [haccepted] at hholds ⊢
  have hmholds : m.Holds (leaderLog.take (request.prevLogIndex + request.entries.length)) :=
    hholds.of_parts rfl
  have hlast : m.lastLogIndex = request.prevLogIndex + request.entries.length :=
    hmholds.lastIndex.trans hlength
  have hkept : m.id = n.id ∧ m.term = n.term ∧ m.role = n.role ∧ m.leaderID = n.leaderID ∧
      m.logBaseIndex = n.logBaseIndex ∧ m.commitIndex = n.commitIndex ∧
      m.durableLogIndex ≤ n.durableLogIndex ∧
      m.durableLogIndex ≤ request.prevLogIndex + offset := by
    rw [← hm, cut]
    have hdurable := h.durable
    rcases htruncate with rfl | ⟨rfl, hend⟩
    · rw [if_pos (by omega)]
      refine ⟨rfl, rfl, rfl, rfl, rfl, rfl, Nat.min_le_left _ _, ?_⟩
      exact (Nat.min_le_right _ _).trans (by simp only; omega)
    · rw [if_neg (by simp)]
      exact ⟨rfl, rfl, rfl, rfl, rfl, rfl, le_rfl, by simp only [Node.appendEntries]; omega⟩
  obtain ⟨hid, hterm, hmrole, hmleader, hmbase, hmcommit, -, hmdurable⟩ := hkept
  have hwrittenLast : written.lastIndex = m.lastLogIndex := by rw [hwritten]
  refine ⟨⟨m.id, m.term, written.requestID, true, written.lastIndex, 0, 0, written.readID⟩,
    hid.trans h.id_eq, rfl, hwrittenLast.trans hlast, ?_⟩
  rw [← hterm]
  refine logs _ written (hid.trans h.id_eq) hmholds (hmbase.trans h.base) (by omega) (by omega)
    ?_ ?_ (hmrole.trans hrole) ?_ (hwrittenLast.trans hmholds.lastIndex) rounds
  · rw [hwritten]
  · rw [hwritten, hterm, hcutFrom.term]
  · rw [hwritten, hmleader, hleader]

theorem Stands.answers (h : n.Stands id log) (hnumbered : Numbered log)
    (hrole : n.role = .follower) (hleader : n.leaderID = request.sender)
    (hcutFrom : CutFrom leaderLog n.term request) (hleaderNumbered : Numbered leaderLog)
    (hmatching : Matching LogEntry.term log leaderLog)
    (hcommitted : log.take n.commitIndex <+: leaderLog)
    (hnew : request.entries ≠ [] → log.length ≤ request.prevLogIndex ∨
      Foundation.termAt LogEntry.term log (request.prevLogIndex + 1) ≠
        Foundation.termAt LogEntry.term leaderLog (request.prevLogIndex + 1))
    (hfull : request.entries = [] →
      n.matchesAt request.prevLogIndex request.prevLogTerm = true →
      log = leaderLog.take request.prevLogIndex) (rounds next : Nat)
    (pending : Nat → Option PendingHardStatePersistence) (term : Nat) (votedFor : NodeID) :
    (n.matchesAt request.prevLogIndex request.prevLogTerm = false ∧
      n.answerEntries request = (n, n.rejectEntries request request.prevLogIndex)) ∨
    (n.matchesAt request.prevLogIndex request.prevLogTerm = true ∧
      ∃ response : AppendEntriesResponse, response.sender = id ∧ response.success = true ∧
        response.matchIndex = request.prevLogIndex + request.entries.length ∧
        Responds id (leaderLog.take (request.prevLogIndex + request.entries.length)) n.term
          response (settle (rounds + 2)
            ((n.answerEntries request).1.withHardState next pending term votedFor,
              (n.answerEntries request).2))) := by
  have hprevLeader := hcutFrom.prev_le
  cases hmatches : n.matchesAt request.prevLogIndex request.prevLogTerm with
  | false => exact .inl ⟨rfl, by rw [answerEntries, if_pos hmatches]⟩
  | true =>
      refine .inr ⟨rfl, ?_⟩
      have hprev : request.prevLogIndex ≤ log.length := by
        rcases h.holds.matchesAt_iff.mp hmatches with ⟨hzero, -⟩ | ⟨hle, -⟩ <;> omega
      have hlast := h.holds.lastIndex
      have hterms : ∀ index, n.termAt index = Foundation.termAt LogEntry.term log index :=
        fun index => h.holds.termAt_eq (h.base.trans_le (Nat.zero_le _))
      have hscan := n.entriesFrom_scan (request.prevLogIndex + 1) request.entries
        (hcutFrom.consecutive hleaderNumbered) (by omega)
      have hanswer : n.answerEntries request =
          (n.entriesFrom (request.prevLogIndex + 1) request.entries).elim
            (n, n.rejectEntries request (request.prevLogIndex + 1))
            fun found => n.acceptEntries request found.1 found.2 := by
        rw [answerEntries, if_neg (by simp [hmatches]), entriesToAppend]
        cases n.entriesFrom (request.prevLogIndex + 1) request.entries <;> rfl
      generalize n.entriesFrom (request.prevLogIndex + 1) request.entries = result at hscan hanswer
      rw [hanswer]
      cases hscan with
      | refused offset entry found differs inside committed agree =>
          -- The committed prefix is the Leader's too.
          have hterm := (hcutFrom.entry_term found).2
          rw [hterms, ← hterm] at differs
          refine absurd ?_ differs
          have hcommitLength : (log.take n.commitIndex).length = n.commitIndex := by
            rw [List.length_take, Nat.min_eq_left h.commit_le]
          rw [termAt_front hcommitted (by omega), termAt_take committed]
      | held agree =>
          have hnone : request.entries = [] := by
            by_contra hsome
            have hentry := List.getElem?_eq_getElem (List.length_pos_iff.mpr hsome)
            obtain ⟨hle, hterm⟩ := agree 0 _ hentry
            rcases hnew hsome with hshort | hdiffers
            · omega
            · rw [hterms, ← (hcutFrom.entry_term hentry).2] at hterm
              exact hdiffers hterm
          have hsame := hfull hnone hmatches
          have hlength : log.length = request.prevLogIndex := by
            rw [hsame, List.length_take, Nat.min_eq_left hprevLeader]
          have haccepted : n.acceptEntries request [] 0 =
              n.advanceFollowerCommit request.leaderCommit
                (n.appendEntriesResponse request.sender request.requestID true n.lastLogIndex 0 0
                  request.readID) := by
            rw [acceptEntries, if_neg (by simp), if_neg (by rw [h.durable]; omega)]
          rw [Option.elim_some, haccepted, hnone, List.length_nil, Nat.add_zero, ← hsame]
          refine ⟨⟨n.id, n.term, request.requestID, true, n.lastLogIndex, 0, 0, request.readID⟩,
            h.id_eq, rfl, hlast.trans hlength, ?_⟩
          exact h.advances _ _ _ (rounds + 1) _ _ _ _
      | conflict offset entry found differs inside uncommitted agree =>
          exact h.accepts hnumbered hrole hleader hcutFrom hleaderNumbered hmatching hmatches
            (List.getElem?_eq_some_iff.mp found).1 (by omega) (by omega) agree (.inl rfl) _ _ _ _ _
      | beyond offset within follows agree =>
          have hcommit := h.commit_le
          exact h.accepts hnumbered hrole hleader hcutFrom hleaderNumbered hmatching hmatches
            within (by omega) (by omega) agree (.inr ⟨rfl, by omega⟩) _ _ _ _ _

theorem answer_eq (hterm : n.term ≤ request.term) :
    ∃ rounds next pending term votedFor, n.answer request = settle (rounds + 2)
      (((n.recognizeLeader request.term request.sender).answerEntries request).1.withHardState
          next pending term votedFor,
        .resetElectionTimer ::
          ((n.recognizeLeader request.term request.sender).answerEntries request).2) := by
  rw [answer, handleAppendEntries, if_neg (Nat.not_lt.mpr hterm)]
  dsimp only
  generalize (n.recognizeLeader request.term request.sender).answerEntries request = answered
  by_cases hnewer : request.term > n.term
  · refine ⟨0, answered.1.nextHardStatePersistence + 1,
      Function.update (Function.update answered.1.pendingHardState
        (answered.1.nextHardStatePersistence + 1)
        (some ⟨answered.1.term, answered.1.votedFor, .resetElectionTimer :: answered.2⟩))
        (answered.1.nextHardStatePersistence + 1) none,
      answered.1.term, answered.1.votedFor, ?_⟩
    rw [decide_eq_true hnewer, afterTermChange, if_pos rfl, persistHardState, settle_single rfl]
    simp only [step, hardStatePersisted, Function.update_self, completeHardState, withHardState]
    rw [if_neg (by simp)]
  · refine ⟨1, answered.1.nextHardStatePersistence, answered.1.pendingHardState,
      answered.1.durableTerm, answered.1.durableVotedFor, ?_⟩
    rw [decide_eq_false hnewer, afterTermChange, if_neg (by simp)]
    rfl

theorem conflictHint_congr {m : Node} (hlast : m.lastLogIndex = n.lastLogIndex)
    (hbase : m.logBaseIndex = n.logBaseIndex) (hterm : ∀ index, m.termAt index = n.termAt index)
    (index : Nat) : m.conflictHint index = n.conflictHint index := by
  have hfirst : ∀ term first, m.conflictFirst term first = n.conflictFirst term first := by
    intro term first
    induction first with
    | zero => rfl
    | succ first ih => simp only [conflictFirst, hbase, hterm, ih]
  simp only [conflictHint, hlast, hterm, hfirst]

theorem recognizeLeader_stands (h : n.Stands id log) (hterm : n.term ≤ request.term) :
    (n.recognizeLeader request.term request.sender).Stands id log ∧
      (n.recognizeLeader request.term request.sender).term = request.term ∧
      (n.recognizeLeader request.term request.sender).role = .follower ∧
      (n.recognizeLeader request.term request.sender).leaderID = request.sender ∧
      (n.recognizeLeader request.term request.sender).commitIndex = n.commitIndex ∧
      (∀ index term, (n.recognizeLeader request.term request.sender).matchesAt index term =
        n.matchesAt index term) ∧
      ∀ index, (n.recognizeLeader request.term request.sender).conflictHint index =
        n.conflictHint index := by
  unfold recognizeLeader
  dsimp only
  split
  · exact ⟨⟨h.id_eq, h.holds.of_parts rfl, h.base, h.durable, h.commit_le⟩, rfl, rfl, rfl, rfl,
      fun _ _ => rfl, conflictHint_congr rfl rfl fun _ => rfl⟩
  next hsame =>
    exact ⟨⟨h.id_eq, h.holds.of_parts rfl, h.base, h.durable, h.commit_le⟩,
      Nat.le_antisymm hterm (Nat.not_lt.mp hsame), rfl, rfl, rfl, fun _ _ => rfl,
      conflictHint_congr rfl rfl fun _ => rfl⟩

/-- A Follower's answer: a hint at the conflict, or the Leader's log up to the batch's end. -/
theorem Stands.answer (h : n.Stands id log) (hnumbered : Numbered log)
    (hterm : n.term ≤ request.term) (hcutFrom : CutFrom leaderLog request.term request)
    (hleaderNumbered : Numbered leaderLog) (hmatching : Matching LogEntry.term log leaderLog)
    (hcommitted : log.take n.commitIndex <+: leaderLog)
    (hnew : request.entries ≠ [] → log.length ≤ request.prevLogIndex ∨
      Foundation.termAt LogEntry.term log (request.prevLogIndex + 1) ≠
        Foundation.termAt LogEntry.term leaderLog (request.prevLogIndex + 1))
    (hfull : request.entries = [] →
      n.matchesAt request.prevLogIndex request.prevLogTerm = true →
      log = leaderLog.take request.prevLogIndex) :
    (n.matchesAt request.prevLogIndex request.prevLogTerm = false ∧
      (n.answer request).1.commitIndex = n.commitIndex ∧
      ∃ response : AppendEntriesResponse, response.sender = id ∧ response.success = false ∧
        (response.conflictTerm, response.conflictIndex) = n.conflictHint request.prevLogIndex ∧
        Responds id log request.term response (n.answer request)) ∨
    (n.matchesAt request.prevLogIndex request.prevLogTerm = true ∧
      ∃ response : AppendEntriesResponse, response.sender = id ∧ response.success = true ∧
        response.matchIndex = request.prevLogIndex + request.entries.length ∧
        Responds id (leaderLog.take (request.prevLogIndex + request.entries.length)) request.term
          response (n.answer request)) := by
  obtain ⟨hstands, hcurrent, hrole, hleader, hcommit, hmatches, hhint⟩ :=
    recognizeLeader_stands h hterm
  obtain ⟨rounds, next, pending, term, votedFor, heq⟩ := answer_eq hterm
  rw [settle_cons rfl] at heq
  generalize n.recognizeLeader request.term request.sender = k at *
  rw [← hcurrent] at hcutFrom
  rcases hstands.answers hnumbered hrole hleader hcutFrom hleaderNumbered hmatching
    (hcommit.symm ▸ hcommitted) hnew (fun hnone hsame => hfull hnone (hmatches _ _ ▸ hsame)) rounds
    next pending term votedFor with
    ⟨hdiffers, hrefused⟩ | ⟨hsame, response, hid, hsuccess, hindex, hresponds⟩
  · have hquiet : ∀ action ∈ k.rejectEntries request request.prevLogIndex,
        action.completion = none := by
      intro action haction
      obtain rfl := List.mem_singleton.mp haction
      rfl
    rw [hrefused, settle_quiet hquiet] at heq
    refine .inl ⟨hmatches _ _ ▸ hdiffers, by rw [heq]; exact hcommit,
      ⟨k.id, k.term, request.requestID, false, k.lastLogIndex,
        (k.conflictHint request.prevLogIndex).1, (k.conflictHint request.prevLogIndex).2,
        request.readID⟩, hstands.id_eq, rfl, hhint _, ?_⟩
    rw [heq]
    exact ⟨hstands.withHardState, hcurrent, rfl⟩
  · refine .inr ⟨hmatches _ _ ▸ hsame, response, hid, hsuccess, hindex, ?_⟩
    rw [heq]
    exact ⟨hresponds.stands, hresponds.term_eq.trans hcurrent, hresponds.sent⟩

end Answer

/-! ## The Leader's next probe -/

section Probe

variable {l : Node} {leaderLog : List LogEntry} {llog : Nat → List LogEntry}

theorem Holds.nextIndex_eq (hl : l.Holds leaderLog) {response : AppendEntriesResponse}
    {earlier : Nat} (hnext : l.conflictNext response = earlier + 1)
    (hle : earlier ≤ leaderLog.length) : l.nextIndexFromConflict response = earlier + 1 := by
  simp only [nextIndexFromConflict, hnext, hl.lastIndex, Nat.add_eq_zero_iff, one_ne_zero,
    and_false, if_false]
  omega

/-- The probe after a refusal lies before the refused one, right before a new entry. -/
theorem Holds.probes (hl : l.Holds leaderLog) (hlbase : l.logBaseIndex = 0) (h : n.Holds log)
    (hbase : n.logBaseIndex = 0) (hleader : Sound LogEntry.term llog leaderLog)
    (hsound : Sound LogEntry.term llog log) {prev : Nat} (hprev : prev ≤ leaderLog.length)
    (hrefused : n.matchesAt prev (Foundation.termAt LogEntry.term leaderLog prev) = false)
    {response : AppendEntriesResponse}
    (hhint : (response.conflictTerm, response.conflictIndex) = n.conflictHint prev) :
    ∃ earlier < prev, l.nextIndexFromConflict response = earlier + 1 ∧
      (log.length ≤ earlier ∨
        Foundation.termAt LogEntry.term log (earlier + 1) ≠
          Foundation.termAt LogEntry.term leaderLog (earlier + 1)) := by
  have hterms : ∀ index, n.termAt index = Foundation.termAt LogEntry.term log index :=
    fun index => h.termAt_eq (hbase.trans_le (Nat.zero_le _))
  have hleaderTerms : ∀ index, l.termAt index = Foundation.termAt LogEntry.term leaderLog index :=
    fun index => hl.termAt_eq (hlbase.trans_le (Nat.zero_le _))
  have hnot : ¬ ((prev = 0 ∧ Foundation.termAt LogEntry.term leaderLog prev = 0) ∨
      (prev ≤ log.length ∧ n.termAt prev = Foundation.termAt LogEntry.term leaderLog prev)) := by
    rw [← h.matchesAt_iff, hrefused]
    simp
  rw [not_or] at hnot
  have hpos : 0 < prev := by
    refine Nat.pos_of_ne_zero ?_
    rintro rfl
    exact hnot.1 ⟨rfl, Foundation.termAt_zero _⟩
  rw [conflictHint, h.lastIndex] at hhint
  rcases Nat.lt_or_ge log.length prev with hshort | hinside
  · -- The Follower's log is too short: the next probe is its last position.
    rw [if_pos (.inr hshort), Prod.mk.injEq] at hhint
    refine ⟨log.length, hshort, hl.nextIndex_eq ?_ (by omega), .inl le_rfl⟩
    rw [conflictNext, if_neg (not_not.mpr hhint.1), hhint.2]
  · have hconflict : Foundation.termAt LogEntry.term log prev ≠
        Foundation.termAt LogEntry.term leaderLog prev := by
      rw [← hterms]
      exact fun hsame => hnot.2 ⟨hinside, hsame⟩
    rw [if_neg (by omega), Prod.mk.injEq] at hhint
    obtain ⟨hfirstPos, hfirstLe, hfirstTerm⟩ := n.conflictFirst_spec hpos
    rw [← hhint.2] at hfirstPos hfirstLe hfirstTerm
    rw [hterms, hterms] at hfirstTerm
    have hconflictTerm : response.conflictTerm = Foundation.termAt LogEntry.term log prev := by
      rw [hhint.1, hterms]
    have hpositive : response.conflictTerm ≠ 0 := by
      obtain ⟨e, he, heq⟩ := termAt_mem (τ := LogEntry.term) hpos hinside
      rw [hconflictTerm, heq]
      exact (hsound.positive e he).ne'
    cases hfound : l.lastOfTerm response.conflictTerm l.lastLogIndex with
    | none =>
        -- The Leader has nothing of that term: the next probe is before all of it.
        have habsent := lastOfTerm_none hfound response.conflictIndex hfirstPos
          (by rw [hl.lastIndex]; omega)
        have hnext : response.conflictIndex - 1 + 1 = response.conflictIndex := by omega
        refine ⟨response.conflictIndex - 1, by omega, hl.nextIndex_eq ?_ (by omega), .inr ?_⟩
        · rw [conflictNext, if_pos hpositive, hfound, hnext]
        · rw [hnext, hfirstTerm, ← hconflictTerm, ← hleaderTerms]
          exact habsent.symm
    | some index =>
        -- The Leader has some of that term: the next probe is its last entry of it.
        obtain ⟨hindexPos, hindexLe, hindexTerm, hlater⟩ := lastOfTerm_some hfound
        rw [hl.lastIndex] at hindexLe hlater
        rw [hleaderTerms, hconflictTerm] at hindexTerm
        obtain ⟨hbefore, hshared⟩ := hsound.before_conflict hleader hpos hinside hconflict
          hindexPos hindexLe hindexTerm
        have hrun : Foundation.termAt LogEntry.term log (index + 1) = response.conflictTerm := by
          have hupper := hsound.sorted.termAt_le (Nat.succ_le_of_lt hbefore) hinside
          have hlower := hsound.sorted.termAt_le (Nat.le_succ index) (by omega)
          rw [hconflictTerm]
          exact Nat.le_antisymm hupper (hshared ▸ hlower)
        refine ⟨index, hbefore, hl.nextIndex_eq ?_ hindexLe, .inr ?_⟩
        · rw [conflictNext, if_pos hpositive, hfound]
        · rw [hrun, ← hleaderTerms]
          exact (hlater (index + 1) (by omega) (by omega)).symm

structure Leads (l : Node) (peer : NodeID) (leaderLog : List LogEntry) (prev matched : Nat) :
    Prop where
  holds : l.Holds leaderLog
  base : l.logBaseIndex = 0
  durable : l.durableLogIndex = leaderLog.length
  next : l.nextIndex peer = prev + 1
  prev_le : prev ≤ leaderLog.length
  matched_eq : l.matchIndex peer = matched
  idle : (l.appendInFlight peer).requestID = 0

variable {peer : NodeID} {prev matched : Nat}

theorem Leads.sends (h : l.Leads peer leaderLog prev matched) :
    ∃ sent request, l.sendAppendEntriesTo peer 0 = (sent, [.sendAppendEntries peer request]) ∧
      CutFrom leaderLog l.term request ∧ request.prevLogIndex = prev ∧
      (request.entries = [] → prev = leaderLog.length) ∧
      sent.ledger = l.ledger ∧ sent.nextIndex = l.nextIndex ∧ sent.matchIndex = l.matchIndex := by
  have hprev := h.prev_le
  have hlast : min l.durableLogIndex l.lastLogIndex = leaderLog.length := by
    rw [h.durable, h.holds.lastIndex, Nat.min_self]
  unfold sendAppendEntriesTo
  rw [if_neg (not_not.mpr h.idle)]
  have hclamp : ¬ (prev + 1 = 0 ∨ prev + 1 > leaderLog.length + 1) := by omega
  have habove : ¬ prev + 1 ≤ l.logBaseIndex := by
    rw [h.base]
    omega
  simp only [hlast, h.next, if_neg hclamp, if_neg habove]
  refine ⟨_, _, rfl, ⟨rfl, ?_, ?_, ?_⟩, by simp, ?_, rfl, rfl, rfl⟩
  · simpa using hprev
  · simp only [Nat.add_sub_cancel]
    exact h.holds.termAt_eq (h.base.trans_le (Nat.zero_le _))
  · simp only [Nat.add_sub_cancel]
    rcases Nat.lt_or_ge prev leaderLog.length with hinside | hend
    · obtain ⟨count, -, hbatch⟩ := h.holds.entriesBatch_eq
        (Nat.not_le.mp habove) (Nat.succ_le_of_lt hinside) le_rfl
      rw [hbatch]
      exact List.take_prefix _ _
    · rw [l.entriesBatch_nil (by omega)]
      exact List.nil_prefix
  · intro hnone
    by_contra hinside
    obtain ⟨count, hcount, hbatch⟩ := h.holds.entriesBatch_eq (Nat.not_le.mp habove)
      (show prev + 1 ≤ leaderLog.length by omega) le_rfl
    rw [hbatch, List.take_eq_nil_iff, List.drop_eq_nil_iff] at hnone
    omega

theorem Leads.recorded {sent : Node} (h : l.Leads peer leaderLog prev matched)
    (hledger : sent.ledger = l.ledger) (hmatch : sent.matchIndex = l.matchIndex)
    {response : AppendEntriesResponse} (hsender : response.sender = peer) {later reached : Nat}
    (hle : later ≤ leaderLog.length)
    (hsuccess : response.success = true → later = reached ∧ response.matchIndex = reached ∧
      matched ≤ reached)
    (hfailure : response.success = false →
      sent.nextIndexFromConflict response = later + 1 ∧ reached = matched) :
    (sent.recordResponse response).Leads peer leaderLog later reached := by
  have hrecorded := (ledger_recordResponse (n := sent) response).trans hledger
  have hbase := (congrArg Ledger.logBaseIndex hrecorded :).trans h.base
  have hdurable := (congrArg Ledger.durableLogIndex hrecorded :).trans h.durable
  have hmatched : sent.matchIndex peer = matched := hmatch ▸ h.matched_eq
  subst hsender
  cases hresponse : response.success with
  | true =>
      obtain ⟨rfl, hindex, hreached⟩ := hsuccess hresponse
      refine ⟨h.holds.of_ledger hrecorded, hbase, hdurable, ?_, hle, ?_, ?_⟩
      all_goals simp only [recordResponse, hresponse, if_true, Function.update_self]
      · rw [hmatched, hindex, max_eq_right hreached]
      · rw [hmatched, hindex, max_eq_right hreached]
  | false =>
      obtain ⟨hnext, rfl⟩ := hfailure hresponse
      refine ⟨h.holds.of_ledger hrecorded, hbase, hdurable, ?_, hle, ?_, ?_⟩
      all_goals simp only [recordResponse, hresponse, Bool.false_eq_true, if_false,
        Function.update_self]
      · exact hnext
      · exact hmatched

end Probe

end Node

/-! ## Rounds -/

namespace Exchange

open Node (CutFrom)

/-- A Leader and a Follower between two rounds, the next probe being right before a new entry. -/
structure Paired (x : Exchange) (id : NodeID) (term : Nat) (leaderLog log : List LogEntry)
    (prev matched : Nat) : Prop where
  leads : x.leader.Leads id leaderLog prev matched
  leaderTerm : x.leader.term = term
  stands : x.follower.Stands id log
  term_le : x.follower.term ≤ term
  committed : log.take x.follower.commitIndex <+: leaderLog
  matched_le : matched ≤ prev
  new : prev < leaderLog.length → log.length ≤ prev ∨
    Foundation.termAt LogEntry.term log (prev + 1) ≠
      Foundation.termAt LogEntry.term leaderLog (prev + 1)

section Rounds

variable {x : Exchange} {id : NodeID} {term : Nat} {leaderLog log : List LogEntry}
  {prev matched : Nat} {llog : Nat → List LogEntry}

/-- A round moves the probe back, or brings the Follower's log forward. -/
theorem Paired.round (h : x.Paired id term leaderLog log prev matched) (hnumbered : Numbered log)
    (hleader : Numbered leaderLog) (hsound : Sound LogEntry.term llog log)
    (hleaderSound : Sound LogEntry.term llog leaderLog)
    (hfull : prev = leaderLog.length → x.follower.matchesAt prev
      (Foundation.termAt LogEntry.term leaderLog prev) = true → log = leaderLog.take prev) :
    ∃ r, x.round = some r ∧ r.request.prevLogIndex = prev ∧
      r.request.prevLogTerm = Foundation.termAt LogEntry.term leaderLog prev ∧
      ((r.response.success = false ∧
          x.follower.matchesAt prev (Foundation.termAt LogEntry.term leaderLog prev) = false ∧
          ∃ earlier < prev, matched = 0 → r.next.Paired id term leaderLog log earlier 0) ∨
        (r.response.success = true ∧ ∃ reached, prev ≤ reached ∧
          (prev < leaderLog.length → prev < reached) ∧
          r.next.Paired id term leaderLog (leaderLog.take reached) reached reached)) := by
  obtain ⟨sent, request, hsends, hcut, rfl, hend, hledger, -, hmatch⟩ := h.leads.sends
  have hself : x.follower.id = id := h.stands.id_eq
  have hterm : request.term = term := hcut.term.trans h.leaderTerm
  have hmatching : Matching LogEntry.term log leaderLog :=
    fun position hle hle' hterm => hsound.matching hleaderSound hle hle' hterm
  have hcurrent : ∀ response, (sent.recordResponse response).term = term := by
    intro response
    have hrecorded := (Node.ledger_recordResponse (n := sent) response).trans hledger
    exact (congrArg Ledger.term hrecorded).trans h.leaderTerm
  have hround : ∀ response, (x.follower.answer request).2.findSome? Action.appendResponse =
      some response → x.round = some ⟨request, response,
        ⟨sent.recordResponse response, (x.follower.answer request).1⟩⟩ := by
    intro response hresponse
    have hfirst : [Action.sendAppendEntries id request].findSome? Action.appendRequest =
        some request := rfl
    simp only [Exchange.round, hself, hsends, hfirst, hresponse]
  have hlength : request.prevLogIndex + request.entries.length ≤ leaderLog.length := by
    have hentries := hcut.entries.length_le
    have hprev := hcut.prev_le
    rw [List.length_drop] at hentries
    omega
  have hnew : request.entries ≠ [] → log.length ≤ request.prevLogIndex ∨
      Foundation.termAt LogEntry.term log (request.prevLogIndex + 1) ≠
        Foundation.termAt LogEntry.term leaderLog (request.prevLogIndex + 1) := by
    intro hsome
    have hpos := List.length_pos_iff.mpr hsome
    exact h.new (by omega)
  have hlast : request.entries = [] →
      x.follower.matchesAt request.prevLogIndex request.prevLogTerm = true →
      log = leaderLog.take request.prevLogIndex := by
    intro hnone hsame
    exact hfull (hend hnone) (hcut.prevTerm ▸ hsame)
  rcases h.stands.answer hnumbered (hterm.symm ▸ h.term_le) (hcut.term.symm ▸ hcut) hleader
    hmatching h.committed hnew hlast with
    ⟨hdiffers, hcommit, response, hsender, hfailed, hhint, hresponds⟩ |
    ⟨hsame, response, hsender, hsuccess, hindex, hresponds⟩
  · refine ⟨_, hround response hresponds.sent, rfl, hcut.prevTerm, .inl ⟨hfailed, ?_, ?_⟩⟩
    · rw [← hcut.prevTerm]
      exact hdiffers
    · have hsent := h.leads.holds.of_ledger hledger
      have hbase := (congrArg Ledger.logBaseIndex hledger :).trans h.leads.base
      obtain ⟨earlier, hearlier, hprobe, hbefore⟩ := hsent.probes hbase h.stands.holds
        h.stands.base hleaderSound hsound hcut.prev_le (hcut.prevTerm ▸ hdiffers) hhint
      refine ⟨earlier, hearlier, fun hzero => ⟨?_, hcurrent response, hresponds.stands, ?_, ?_,
        Nat.zero_le _, fun _ => hbefore⟩⟩
      · refine h.leads.recorded hledger hmatch hsender (by omega) (fun hyes => ?_)
          fun _ => ⟨hprobe, hzero.symm⟩
        exact absurd (hyes.symm.trans hfailed) (by simp)
      · exact (hresponds.term_eq.trans hterm).le
      · rw [hcommit]
        exact h.committed
  · refine ⟨_, hround response hresponds.sent, rfl, hcut.prevTerm, .inr ⟨hsuccess,
      request.prevLogIndex + request.entries.length, Nat.le_add_right _ _, ?_, ?_⟩⟩
    · intro hinside
      have hsome : request.entries ≠ [] := fun hnone => hinside.ne (hend hnone)
      have hpos := List.length_pos_iff.mpr hsome
      omega
    · refine ⟨?_, hcurrent response, hresponds.stands, (hresponds.term_eq.trans hterm).le, ?_,
        le_rfl, fun _ => .inl (List.length_take_le _ _)⟩
      · have hmatched := h.matched_le
        refine h.leads.recorded hledger hmatch hsender hlength
          (fun _ => ⟨rfl, hindex, by omega⟩) fun hno => ?_
        exact absurd (hno.symm.trans hsuccess) (by simp)
      · exact (List.take_prefix _ _).trans (List.take_prefix _ _)

/-- The exchange while the Leader probes, and once the Follower copies its log. -/
inductive Repairing (id : NodeID) (term : Nat) (leaderLog log : List LogEntry) (x : Exchange) :
    Prop where
  | probing (prev : Nat) (paired : x.Paired id term leaderLog log prev 0)
  | copying (reached : Nat)
      (paired : x.Paired id term leaderLog (leaderLog.take reached) reached reached)

/-- What both logs are throughout the exchange. -/
structure Agreed (term : Nat) (leaderLog log : List LogEntry) (llog : Nat → List LogEntry) :
    Prop where
  numbered : Numbered log
  leaderNumbered : Numbered leaderLog
  sound : Sound LogEntry.term llog log
  leaderSound : Sound LogEntry.term llog leaderLog
  led : llog term = leaderLog
  own : lastTerm LogEntry.term leaderLog = term
  nonempty : leaderLog ≠ []
  bounded : ∀ entry ∈ log, entry.term ≤ term

variable (hagreed : Agreed term leaderLog log llog)
include hagreed

theorem Agreed.full (hstands : x.follower.Stands id log)
    (hmatches : x.follower.matchesAt leaderLog.length
      (Foundation.termAt LogEntry.term leaderLog leaderLog.length) = true) : log = leaderLog := by
  have hpos := List.length_pos_iff.mpr hagreed.nonempty
  have hown : Foundation.termAt LogEntry.term leaderLog leaderLog.length = term := hagreed.own
  rcases hstands.holds.matchesAt_iff.mp hmatches with ⟨hzero, -⟩ | ⟨hle, hterm⟩
  · omega
  · rw [hstands.holds.termAt_eq (hstands.base.trans_le (Nat.zero_le _)), hown] at hterm
    have hled := hagreed.led
    rw [← hled] at hpos hle hterm
    rw [← hled]
    exact hagreed.sound.eq_led hagreed.bounded hpos hle hterm

theorem Agreed.probe (h : x.Paired id term leaderLog log prev 0) :
    ∃ r, x.round = some r ∧ r.request.prevLogIndex = prev ∧
      ((r.response.success = false ∧
          x.follower.matchesAt prev r.request.prevLogTerm = false ∧
          ∃ earlier < prev, r.next.Paired id term leaderLog log earlier 0) ∨
        (r.response.success = true ∧ ∃ reached,
          r.next.Paired id term leaderLog (leaderLog.take reached) reached reached)) := by
  obtain ⟨r, hround, hprev, hprevTerm, hresult⟩ := h.round hagreed.numbered
    hagreed.leaderNumbered hagreed.sound hagreed.leaderSound (fun hlast hsame => by
      subst hlast
      rw [List.take_length]
      exact hagreed.full h.stands hsame)
  refine ⟨r, hround, hprev, ?_⟩
  rcases hresult with ⟨hfailed, hdiffers, earlier, hearlier, hnext⟩ | ⟨hsuccess, reached, -, -, hnext⟩
  · exact .inl ⟨hfailed, hprevTerm ▸ hdiffers, earlier, hearlier, hnext rfl⟩
  · exact .inr ⟨hsuccess, reached, hnext⟩

theorem Agreed.copy {reached : Nat}
    (h : x.Paired id term leaderLog (leaderLog.take reached) reached reached) :
    ∃ r, x.round = some r ∧ r.response.success = true ∧ ∃ later, reached ≤ later ∧
      (reached < leaderLog.length → reached < later) ∧
      r.next.Paired id term leaderLog (leaderLog.take later) later later := by
  have hfront : leaderLog.take reached <+: leaderLog := List.take_prefix _ _
  obtain ⟨r, hround, -, -, hresult⟩ := h.round (hagreed.leaderNumbered.front hfront)
    hagreed.leaderNumbered (hagreed.leaderSound.front hfront) hagreed.leaderSound fun _ _ => rfl
  refine ⟨r, hround, ?_⟩
  rcases hresult with ⟨-, hdiffers, -⟩ | ⟨hsuccess, hlater⟩
  · -- The Follower holds the Leader's log up to the previous position.
    have hlength : (leaderLog.take reached).length = reached := by
      rw [List.length_take, Nat.min_eq_left h.leads.prev_le]
    have hsame : x.follower.matchesAt reached
        (Foundation.termAt LogEntry.term leaderLog reached) = true := by
      rw [h.stands.holds.matchesAt_iff,
        h.stands.holds.termAt_eq (h.stands.base.trans_le (Nat.zero_le _)), termAt_take le_rfl]
      exact .inr ⟨hlength.ge, rfl⟩
    exact absurd (hsame.symm.trans hdiffers) (by simp)
  · exact ⟨hsuccess, hlater⟩

theorem Agreed.repairing (h : Repairing id term leaderLog log x) {r : Round}
    (hround : x.round = some r) : Repairing id term leaderLog log r.next := by
  cases h with
  | probing prev paired =>
      obtain ⟨r', hr', -, hresult⟩ := hagreed.probe paired
      obtain rfl : r = r' := Option.some.inj (hround.symm.trans hr')
      rcases hresult with ⟨-, -, earlier, -, hnext⟩ | ⟨-, reached, hnext⟩
      · exact .probing earlier hnext
      · exact .copying reached hnext
  | copying reached paired =>
      obtain ⟨r', hr', -, later, -, -, hnext⟩ := hagreed.copy paired
      obtain rfl : r = r' := Option.some.inj (hround.symm.trans hr')
      exact .copying later hnext

theorem Agreed.rounds (h : Repairing id term leaderLog log x) : ∃ r, x.round = some r := by
  cases h with
  | probing prev paired =>
      obtain ⟨r, hround, -⟩ := hagreed.probe paired
      exact ⟨r, hround⟩
  | copying reached paired =>
      obtain ⟨r, hround, -⟩ := hagreed.copy paired
      exact ⟨r, hround⟩

theorem Agreed.after (h : Repairing id term leaderLog log x) (rounds : Nat) :
    ∃ y, x.after rounds = some y ∧ Repairing id term leaderLog log y := by
  induction rounds with
  | zero => exact ⟨x, rfl, h⟩
  | succ rounds ih =>
      obtain ⟨y, hafter, hy⟩ := ih
      obtain ⟨r, hround⟩ := hagreed.rounds hy
      exact ⟨r.next, by simp [Exchange.after, hafter, hround], hagreed.repairing hy hround⟩

omit hagreed in
theorem after_next {r : Round} (hround : x.round = some r) (rounds : Nat) :
    x.after (rounds + 1) = r.next.after rounds := by
  induction rounds with
  | zero => simp [Exchange.after, hround]
  | succ rounds ih => rw [Exchange.after, ih, Exchange.after]

omit hagreed in
theorem after_add {y : Exchange} {first : Nat} (hafter : x.after first = some y) (rounds : Nat) :
    x.after (first + rounds) = y.after rounds := by
  induction rounds with
  | zero => exact hafter
  | succ rounds ih => rw [← Nat.add_assoc, Exchange.after, ih, Exchange.after]

/-- Probes move back until one is accepted. -/
theorem Agreed.accepted (h : x.Paired id term leaderLog log prev 0) :
    ∃ rounds ≤ prev, ∃ y r, x.after rounds = some y ∧ y.round = some r ∧
      r.response.success = true ∧ ∃ reached,
        r.next.Paired id term leaderLog (leaderLog.take reached) reached reached := by
  induction prev using Nat.strongRecOn generalizing x with
  | ind prev ih =>
      obtain ⟨r, hround, -, hresult⟩ := hagreed.probe h
      rcases hresult with ⟨-, -, earlier, hearlier, hnext⟩ | ⟨hsuccess, hreached⟩
      · obtain ⟨rounds, hrounds, y, last, hafter, hlast⟩ := ih earlier hearlier hnext
        exact ⟨rounds + 1, by omega, y, last, (after_next hround rounds).trans hafter, hlast⟩
      · exact ⟨0, Nat.zero_le _, x, r, rfl, hround, hsuccess, hreached⟩

/-- Batches move forward until the Follower has the whole log, and it keeps it. -/
theorem Agreed.copied {reached : Nat}
    (h : x.Paired id term leaderLog (leaderLog.take reached) reached reached) :
    ∃ rounds, ∀ later ≥ rounds, ∃ y, x.after later = some y ∧
      y.Paired id term leaderLog (leaderLog.take leaderLog.length) leaderLog.length
        leaderLog.length := by
  generalize hleft : leaderLog.length - reached = left
  induction left using Nat.strongRecOn generalizing x reached with
  | ind left ih =>
      have hreached := h.leads.prev_le
      rcases Nat.lt_or_ge reached leaderLog.length with hinside | hend
      · obtain ⟨r, hround, -, later, -, hlater, hnext⟩ := hagreed.copy h
        have hmore := hlater hinside
        obtain ⟨rounds, hrounds⟩ := ih (leaderLog.length - later) (by omega) hnext rfl
        refine ⟨rounds + 1, fun others hothers => ?_⟩
        obtain ⟨others, rfl⟩ := Nat.exists_eq_succ_of_ne_zero (by omega : others ≠ 0)
        obtain ⟨y, hafter, hy⟩ := hrounds others (by omega)
        exact ⟨y, (after_next hround others).trans hafter, hy⟩
      · obtain rfl : reached = leaderLog.length := by omega
        refine ⟨0, fun others _ => ?_⟩
        clear ih
        induction others with
        | zero => exact ⟨x, rfl, h⟩
        | succ others ih =>
            obtain ⟨y, hafter, hy⟩ := ih (Nat.zero_le _)
            obtain ⟨r, hround, -, later, hlater, -, hnext⟩ := hagreed.copy hy
            obtain rfl : later = leaderLog.length :=
              Nat.le_antisymm hnext.leads.prev_le hlater
            exact ⟨r.next, by simp [Exchange.after, hafter, hround], hnext⟩

end Rounds

structure Fresh (x : Exchange) (leaderLog log : List LogEntry) : Prop where
  leaderHolds : x.leader.Holds leaderLog
  leaderNumbered : Numbered leaderLog
  leaderBase : x.leader.logBaseIndex = 0
  leaderDurable : x.leader.durableLogIndex = x.leader.lastLogIndex
  next : x.leader.nextIndex x.follower.id = x.leader.lastLogIndex + 1
  unmatched : x.leader.matchIndex x.follower.id = 0
  idle : (x.leader.appendInFlight x.follower.id).requestID = 0
  own : x.leader.lastLogTerm = x.leader.term
  nonempty : leaderLog ≠ []
  holds : x.follower.Holds log
  numbered : Numbered log
  base : x.follower.logBaseIndex = 0
  durable : x.follower.durableLogIndex = x.follower.lastLogIndex
  term_le : x.follower.term ≤ x.leader.term
  bounded : ∀ entry ∈ log, entry.term ≤ x.leader.term
  commit_le : x.follower.commitIndex ≤ log.length
  committed : log.take x.follower.commitIndex <+: leaderLog

section Repair

variable {x : Exchange} {leaderLog log : List LogEntry} {llog : Nat → List LogEntry}

theorem Fresh.paired (h : x.Fresh leaderLog log) :
    x.Paired x.follower.id x.leader.term leaderLog log leaderLog.length 0 := by
  have hlast := h.leaderHolds.lastIndex
  refine ⟨⟨h.leaderHolds, h.leaderBase, h.leaderDurable.trans hlast, hlast ▸ h.next, le_rfl,
    h.unmatched, h.idle⟩, rfl, ⟨rfl, h.holds, h.base, h.durable.trans h.holds.lastIndex,
    h.commit_le⟩, h.term_le, h.committed, Nat.zero_le _, fun hless => ?_⟩
  exact absurd hless (lt_irrefl _)

/--
Logs whose entries of each term come from the log of one Leader, the new Leader's own log being
that of its term: every refusal is of the previous position and moves it back, some request is
accepted, and from some round on the Follower has the Leader's log.
-/
theorem conflict_repair (h : x.Fresh leaderLog log) (hleader : Sound LogEntry.term llog leaderLog)
    (hsound : Sound LogEntry.term llog log) (hled : llog x.leader.term = leaderLog) :
    (∀ rounds, ∃ y r, x.after rounds = some y ∧ y.round = some r ∧
      (r.response.success = false →
        y.follower.matchesAt r.request.prevLogIndex r.request.prevLogTerm = false ∧
        ∃ later, r.next.round = some later ∧
          later.request.prevLogIndex < r.request.prevLogIndex)) ∧
    (∃ rounds ≤ x.leader.lastLogIndex, ∃ y r, x.after rounds = some y ∧ y.round = some r ∧
      r.response.success = true) ∧
    ∃ rounds, ∀ later ≥ rounds, ∃ y, x.after later = some y ∧
      y.follower.log = x.leader.log ∧ y.leader.log = x.leader.log := by
  have hagreed : Agreed x.leader.term leaderLog log llog :=
    ⟨h.numbered, h.leaderNumbered, hsound, hleader, hled,
      h.leaderHolds.lastTerm.symm.trans h.own, h.nonempty, h.bounded⟩
  refine ⟨fun rounds => ?_, ?_, ?_⟩
  · obtain ⟨y, hafter, hy⟩ := hagreed.after (.probing _ h.paired) rounds
    cases hy with
    | probing prev paired =>
        obtain ⟨r, hround, hprev, hresult⟩ := hagreed.probe paired
        refine ⟨y, r, hafter, hround, fun hfailed => ?_⟩
        rcases hresult with ⟨-, hdiffers, earlier, hearlier, hnext⟩ | ⟨hsuccess, -⟩
        · obtain ⟨later, hlater, hlaterPrev, -⟩ := hagreed.probe hnext
          exact ⟨hprev ▸ hdiffers, later, hlater, by omega⟩
        · exact absurd (hfailed.symm.trans hsuccess) (by simp)
    | copying reached paired =>
        obtain ⟨r, hround, hsuccess, -⟩ := hagreed.copy paired
        refine ⟨y, r, hafter, hround, fun hfailed => ?_⟩
        exact absurd (hfailed.symm.trans hsuccess) (by simp)
  · obtain ⟨rounds, hrounds, y, r, hafter, hround, hsuccess, -⟩ := hagreed.accepted h.paired
    exact ⟨rounds, h.leaderHolds.lastIndex ▸ hrounds, y, r, hafter, hround, hsuccess⟩
  · obtain ⟨probes, -, y, r, hafter, hround, -, reached, hnext⟩ := hagreed.accepted h.paired
    obtain ⟨batches, hbatches⟩ := hagreed.copied hnext
    refine ⟨probes + 1 + batches, fun later hlater => ?_⟩
    obtain ⟨z, hz, hcopied⟩ := hbatches (later - (probes + 1)) (by omega)
    have hsplit : later = probes + (later - (probes + 1) + 1) := by omega
    refine ⟨z, ?_, ?_, ?_⟩
    · rw [hsplit, after_add hafter, after_next hround, hz]
    · rw [hcopied.stands.holds.log_eq, hcopied.stands.base, h.leaderHolds.log_eq, h.leaderBase,
        List.take_length]
    · rw [hcopied.leads.holds.log_eq, hcopied.leads.base, h.leaderHolds.log_eq, h.leaderBase]

end Repair

/-- A new Leader with no-ops of the given terms, and a Follower with its own. -/
def freshOf (term : Nat) (leaderTerms followerTerms : List Nat) : Exchange where
  leader := { Node.followerOf term leaderTerms with
    id := [2]
    peers := [[1], [3]]
    role := .leader
    leaderID := [2]
    nextIndex := fun _ => leaderTerms.length + 1 }
  follower := Node.followerOf term followerTerms

theorem followerOf_current (term : Nat) (terms : List Nat) :
    (Node.followerOf term terms).term = term ∧ (Node.followerOf term terms).commitIndex = 0 ∧
      (Node.followerOf term terms).logBaseIndex = 0 := by
  rw [Node.followerOf, Node.newNodeFromRecoveredState_trimmed _ _
    ((logOf_numbered terms).first_of_drop rfl)]
  exact ⟨rfl, rfl, rfl⟩

theorem freshOf_fresh {term : Nat} {leaderTerms followerTerms : List Nat}
    (hown : lastTerm LogEntry.term (logOf leaderTerms) = term)
    (hnonempty : logOf leaderTerms ≠ [])
    (hbounded : ∀ entry ∈ logOf followerTerms, entry.term ≤ term) :
    (freshOf term leaderTerms followerTerms).Fresh (logOf leaderTerms) (logOf followerTerms) := by
  have hleader := Node.followerOf_holds term leaderTerms
  have hfollower := Node.followerOf_holds term followerTerms
  have hterm : (freshOf term leaderTerms followerTerms).leader.term = term :=
    (followerOf_current term leaderTerms).1
  obtain ⟨hfollowerTerm, hcommit, hbase⟩ := followerOf_current term followerTerms
  exact
    { leaderHolds := hleader.of_parts rfl
      leaderNumbered := logOf_numbered leaderTerms
      leaderBase := (followerOf_current term leaderTerms).2.2
      leaderDurable := rfl
      next := congrArg (· + 1) ((logOf_length leaderTerms).symm.trans hleader.lastIndex.symm)
      unmatched := rfl
      idle := rfl
      own := hleader.lastTerm.trans (hown.trans hterm.symm)
      nonempty := hnonempty
      holds := hfollower
      numbered := logOf_numbered followerTerms
      base := hbase
      durable := rfl
      term_le := (hfollowerTerm.trans hterm.symm).le
      bounded := fun entry hentry => (hbounded entry hentry).trans hterm.ge
      commit_le := hcommit.trans_le (Nat.zero_le _)
      committed := by
        rw [freshOf, hcommit]
        exact List.nil_prefix }

def sampleLogs (term : Nat) : List LogEntry :=
  if term = 1 then logOf [1, 1, 1] else if term = 2 then logOf [1, 2, 2] else []

theorem conflict_repair_sample : ∃ rounds, ∀ later ≥ rounds, ∃ y,
    (freshOf 2 [1, 2, 2] [1, 1, 1]).after later = some y ∧
      y.follower.log = (freshOf 2 [1, 2, 2] [1, 1, 1]).leader.log ∧
      y.leader.log = (freshOf 2 [1, 2, 2] [1, 1, 1]).leader.log := by
  have hfresh : (freshOf 2 [1, 2, 2] [1, 1, 1]).Fresh (logOf [1, 2, 2]) (logOf [1, 1, 1]) :=
    freshOf_fresh (by decide) (by decide) (by decide)
  have hleader : Sound LogEntry.term sampleLogs (logOf [1, 2, 2]) := by
    refine ⟨by unfold Sorted; decide, by decide, fun position hpos hle => ?_⟩
    have hbound : position ≤ 3 := hle
    interval_cases position <;> decide
  have hsound : Sound LogEntry.term sampleLogs (logOf [1, 1, 1]) := by
    refine ⟨by unfold Sorted; decide, by decide, fun position hpos hle => ?_⟩
    have hbound : position ≤ 3 := hle
    interval_cases position <;> decide
  exact (conflict_repair hfresh hleader hsound rfl).2.2

def Round.outcome (r : Round) : Nat × Bool := (r.request.prevLogIndex, r.response.success)

def outcome (x : Exchange) (rounds : Nat) : Option (Nat × Bool) :=
  (x.after rounds).bind fun y => y.round.map Round.outcome

/--
Log matching alone is not enough.  The hint of term 3 sends the Leader forward to its own entry of
that term, and the shorter log sends it back again.
-/
theorem conflict_repair_oscillates :
    (freshOf 4 [1, 2, 2, 3, 4] [1, 3, 3]).Fresh (logOf [1, 2, 2, 3, 4]) (logOf [1, 3, 3]) ∧
    Matching LogEntry.term (logOf [1, 3, 3]) (logOf [1, 2, 2, 3, 4]) ∧
    ((List.range 6).map (freshOf 4 [1, 2, 2, 3, 4] [1, 3, 3]).outcome) =
      [some (5, false), some (3, false), some (4, false), some (3, false), some (4, false),
        some (3, false)] := by
  refine ⟨freshOf_fresh (by decide) (by decide) (by decide), fun position hle _ => ?_, ?_⟩
  · have hbound : position ≤ 3 := hle
    interval_cases position <;> decide
  · decide +kernel

end Exchange

end QuorumKV.Raft
