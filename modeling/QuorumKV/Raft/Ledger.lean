import QuorumKV.Raft.View

/-!
# The ledger of a core

The part of a core that its durable state and its log depend on: the hard state,
the log, the commit index, what is durable of each, the writes that are not
completed, and whose they are.  Sending and applying leave the ledger alone.
-/

namespace QuorumKV.Raft

open Foundation

structure Ledger where
  term : Nat
  votedFor : NodeID
  logBaseIndex : Nat
  logBaseTerm : Nat
  log : List LogEntry
  lastLogIndex : Nat
  lastLogTerm : Nat
  durableLogIndex : Nat
  commitIndex : Nat
  durableTerm : Nat
  durableVotedFor : NodeID
  durableCommitIndex : Nat
  pendingHardState : Nat → Option PendingHardStatePersistence
  pendingLog : Nat → Option PendingLogPersistence
  pendingCommit : Nat → Option PendingCommitPersistence
  pendingSnapshot : Nat → Option PendingSnapshotPersistence
  id : NodeID

namespace Node

def ledger (n : Node) : Ledger :=
  { term := n.term
    votedFor := n.votedFor
    logBaseIndex := n.logBaseIndex
    logBaseTerm := n.logBaseTerm
    log := n.log
    lastLogIndex := n.lastLogIndex
    lastLogTerm := n.lastLogTerm
    durableLogIndex := n.durableLogIndex
    commitIndex := n.commitIndex
    durableTerm := n.durableTerm
    durableVotedFor := n.durableVotedFor
    durableCommitIndex := n.durableCommitIndex
    pendingHardState := n.pendingHardState
    pendingLog := n.pendingLog
    pendingCommit := n.pendingCommit
    pendingSnapshot := n.pendingSnapshot
    id := n.id }

theorem Holds.of_ledger {n n' : Node} {log : List LogEntry} (h : n.Holds log)
    (hledger : n'.ledger = n.ledger) : n'.Holds log := by
  simp only [ledger, Ledger.mk.injEq] at hledger
  obtain ⟨-, -, hbase, hbaseTerm, hlog, hlast, hlastTerm, -⟩ := hledger
  exact h.of_parts (by rw [logParts, hbase, hbaseTerm, hlog, hlast, hlastTerm]; rfl)

variable {n : Node}

/-! ## Applying -/

theorem ledger_applyLoop (count : Nat) (n : Node) : (n.applyLoop count).1.ledger = n.ledger := by
  induction count generalizing n with
  | zero => rfl
  | succ count ih =>
      unfold applyLoop
      split
      · rfl
      · exact ih _

@[simp] theorem ledger_applyThrough (index : Nat) :
    (n.applyThrough index).1.ledger = n.ledger := by
  unfold applyThrough
  split
  · rfl
  · exact ledger_applyLoop _ n

inductive Applies (n : Node) (index : Nat) : Action → Prop where
  | entry {entry : LogEntry} {position : Nat} (above : n.lastApplied < position)
      (within : position ≤ index)
      (found : n.log[position - n.logBaseIndex - 1]? = some entry) :
      Applies n index (.applyEntry entry)
  | ready (term : Nat) : Applies n index (.becameReadReady term)
  | read (readID : ReadID) (commitIndex : Nat) : Applies n index (.readConfirmed readID commitIndex)

theorem completeReads_applies (index : Nat) :
    ∀ action ∈ n.completeReads.2, n.Applies index action := by
  intro action haction
  obtain ⟨read, -, rfl⟩ := List.mem_map.mp haction
  exact .read read.id read.commitIndex

theorem applyLoop_applies (count : Nat) (n : Node) :
    ∀ action ∈ (n.applyLoop count).2, n.Applies (n.lastApplied + count) action := by
  induction count generalizing n with
  | zero => simp [applyLoop]
  | succ count ih =>
      unfold applyLoop
      split
      · simp
      next entry hentry =>
        intro action haction
        rcases List.mem_cons.mp haction with rfl | haction
        · exact .entry (Nat.lt_succ_self _) (by omega) hentry
        rcases List.mem_append.mp haction with haction | haction
        · split at haction
          · obtain rfl := List.mem_singleton.mp haction
            exact .ready _
          · simp at haction
        · have happlies := ih _ action haction
          cases happlies with
          | entry above within found =>
              exact .entry (Nat.lt_of_succ_lt above) (by simp only at within; omega) found
          | ready term => exact .ready term
          | read readID commitIndex => exact .read readID commitIndex

theorem applyThrough_applies (n : Node) (index : Nat) :
    ∀ action ∈ (n.applyThrough index).2, n.Applies index action := by
  unfold applyThrough
  split
  · exact completeReads_applies index
  next hlater =>
    have hcount : n.lastApplied + (index - n.lastApplied) = index := by omega
    intro action haction
    rcases List.mem_append.mp haction with haction | haction
    · have happlies := applyLoop_applies _ n action haction
      rwa [hcount] at happlies
    · obtain ⟨read, -, rfl⟩ := List.mem_map.mp haction
      exact .read read.id read.commitIndex

/-! ## Sending -/

@[simp] theorem ledger_acknowledgeRead (response : AppendEntriesResponse) :
    (n.acknowledgeRead response).1.ledger = n.ledger := by
  unfold acknowledgeRead
  split
  · rfl
  · split
    · rfl
    · dsimp only
      split <;> rfl

@[simp] theorem ledger_sendAppendEntriesTo (peer : NodeID) (readID : ReadID) :
    (n.sendAppendEntriesTo peer readID).1.ledger = n.ledger := by
  unfold sendAppendEntriesTo
  dsimp only
  repeat' split
  all_goals rfl

theorem ledger_sendToPeers (readID : ReadID) (peers : List NodeID) (n : Node) :
    (sendToPeers readID peers n).1.ledger = n.ledger := by
  induction peers generalizing n with
  | nil => rfl
  | cons peer peers ih => exact (ih _).trans (ledger_sendAppendEntriesTo ..)

@[simp] theorem ledger_sendAppendEntries (readID : ReadID) :
    (n.sendAppendEntries readID).1.ledger = n.ledger :=
  ledger_sendToPeers readID n.peers n

/-! What was applied stays applied. -/

@[simp] theorem lastApplied_acknowledgeRead (response : AppendEntriesResponse) :
    (n.acknowledgeRead response).1.lastApplied = n.lastApplied := by
  unfold acknowledgeRead
  split
  · rfl
  · split
    · rfl
    · dsimp only
      split <;> rfl

@[simp] theorem lastApplied_sendAppendEntriesTo (peer : NodeID) (readID : ReadID) :
    (n.sendAppendEntriesTo peer readID).1.lastApplied = n.lastApplied := by
  unfold sendAppendEntriesTo
  dsimp only
  repeat' split
  all_goals rfl

theorem lastApplied_sendToPeers (readID : ReadID) (peers : List NodeID) (n : Node) :
    (sendToPeers readID peers n).1.lastApplied = n.lastApplied := by
  induction peers generalizing n with
  | nil => rfl
  | cons peer peers ih => exact (ih _).trans (lastApplied_sendAppendEntriesTo ..)

@[simp] theorem lastApplied_sendAppendEntries (readID : ReadID) :
    (n.sendAppendEntries readID).1.lastApplied = n.lastApplied :=
  lastApplied_sendToPeers readID n.peers n

theorem ledger_recordResponse (response : AppendEntriesResponse) :
    (n.recordResponse response).ledger = n.ledger := by
  unfold recordResponse
  split <;> rfl

theorem ledger_recognizeLeader (leader : NodeID) :
    (n.recognizeLeader n.term leader).ledger = n.ledger := by
  simp only [recognizeLeader, lt_irrefl, if_false]
  rfl

end Node

/-! ## Reads and commits -/

theorem acknowledgeRead_frame (n m : Node) (hreads : m.pendingReads = n.pendingReads)
    (hpeers : m.peers = n.peers) (hcommit : m.commitIndex = n.commitIndex)
    (happlied : m.lastApplied = n.lastApplied) (r : AppendEntriesResponse) :
    m.acknowledgeRead r =
      ({ m with pendingReads := (n.acknowledgeRead r).1.pendingReads },
        (n.acknowledgeRead r).2) := by
  have hquorum : m.quorum = n.quorum := by simp only [Node.quorum, hpeers]
  cases hfound : n.pendingReads.find? fun read => read.id = r.readID with
  | none =>
      simp only [Node.acknowledgeRead, hreads, hfound]
      rw [← hreads]
  | some read =>
      by_cases hdone : r.readID = 0 ∨ read.confirmed = true
      · simp only [Node.acknowledgeRead, hreads, hfound, if_pos hdone]
        rw [← hreads]
      · by_cases hfew : (insert r.sender read.acknowledgements).card < n.quorum
        · simp only [Node.acknowledgeRead, hreads, hfound, if_neg hdone, hquorum, if_pos hfew]
        · simp only [Node.acknowledgeRead, hreads, hfound, if_neg hdone, hquorum, if_neg hfew,
            Node.completeReads, hcommit, happlied]

theorem acknowledgeRead_persistCommit (n : Node) (after : List Action)
    (r : AppendEntriesResponse) :
    (n.persistCommit after).1.acknowledgeRead r =
        (((n.acknowledgeRead r).1.persistCommit after).1, (n.acknowledgeRead r).2) ∧
      (n.persistCommit after).2 = ((n.acknowledgeRead r).1.persistCommit after).2 := by
  have hsame := acknowledgeRead_frame n n rfl rfl rfl rfl r
  have hframe := acknowledgeRead_frame n (n.persistCommit after).1 rfl rfl rfl rfl r
  generalize n.acknowledgeRead r = acknowledged at hsame hframe ⊢
  rw [hframe]
  rw [Prod.ext_iff] at hsame
  rw [hsame.1]
  exact ⟨rfl, rfl⟩

theorem commitCandidate_some {n : Node} {last index : Nat} (h : n.commitCandidate last = some index) :
    n.commitIndex < index ∧ index ≤ last ∧ n.termAt index = n.term ∧
      n.quorum ≤ n.replicated index := by
  induction last with
  | zero => simp [Node.commitCandidate] at h
  | succ last ih =>
      unfold Node.commitCandidate at h
      split at h
      · simp at h
      next hlater =>
        split at h
        next hcopies =>
          obtain rfl : last + 1 = index := by simpa using h
          exact ⟨by omega, le_rfl, hcopies.1, hcopies.2⟩
        · obtain ⟨hlt, hle, hrest⟩ := ih h
          exact ⟨hlt, by omega, hrest⟩

end QuorumKV.Raft
