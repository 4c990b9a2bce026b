import QuorumKV.Runtime.Drain

/-!
# Answers and the hard state

A core that enters a newer term writes its hard state before anything it decided
under it.  What it answers does not depend on that write: it is what the core
would have answered once the hard state is durable.
-/

namespace QuorumKV.Runtime

open Raft

theorem entriesFrom_hardened (n : Node) (want : Nat) (entries : List LogEntry) :
    (hardened n).entriesFrom want entries = n.entriesFrom want entries := by
  induction entries generalizing want with
  | nil => rfl
  | cons entry rest ih =>
      simp only [Node.entriesFrom, ih]
      rfl

theorem conflictFirst_hardened (n : Node) (term index : Nat) :
    (hardened n).conflictFirst term index = n.conflictFirst term index := by
  induction index with
  | zero => rfl
  | succ index ih =>
      simp only [Node.conflictFirst, ih]
      rfl

theorem rejectEntries_hardened (n : Node) (r : AppendEntries) (index : Nat) :
    (hardened n).rejectEntries r index = n.rejectEntries r index := by
  simp only [Node.rejectEntries, Node.conflictHint, conflictFirst_hardened]
  rfl

theorem applyLoop_hardened (count : Nat) (n : Node) :
    (hardened n).applyLoop count = (hardened (n.applyLoop count).1, (n.applyLoop count).2) := by
  induction count generalizing n with
  | zero => rfl
  | succ count ih =>
      simp only [Node.applyLoop]
      have hentry : (hardened n).log[(hardened n).lastApplied + 1 - (hardened n).logBaseIndex - 1]? =
          n.log[n.lastApplied + 1 - n.logBaseIndex - 1]? := rfl
      rw [hentry]
      cases n.log[n.lastApplied + 1 - n.logBaseIndex - 1]? with
      | none => rfl
      | some entry =>
          have hnext := ih { n with
            lastApplied := n.lastApplied + 1
            readReady := n.readReady || decide (n.role = .leader ∧ n.readReady = false ∧
              entry.type = .noOp ∧ entry.term = n.term) }
          exact congrArg (fun applied : Node × List Action => (applied.1, Action.applyEntry entry ::
            ((if n.role = .leader ∧ n.readReady = false ∧ entry.type = .noOp ∧ entry.term = n.term
              then [Action.becameReadReady n.term] else []) ++ applied.2))) hnext

theorem applyThrough_hardened (n : Node) (index : Nat) :
    (hardened n).applyThrough index =
      (hardened (n.applyThrough index).1, (n.applyThrough index).2) := by
  have hloop := applyLoop_hardened (index - n.lastApplied) n
  have happlied : (hardened n).lastApplied = n.lastApplied := rfl
  simp only [Node.applyThrough, happlied, hloop]
  split <;> rfl

theorem advanceFollowerCommit_hardened (n : Node) (leaderCommit : Nat) (after : List Action) :
    (hardened n).advanceFollowerCommit leaderCommit after =
      (hardened (n.advanceFollowerCommit leaderCommit after).1,
        (n.advanceFollowerCommit leaderCommit after).2) := by
  have hcommit : (hardened n).durableCommitIndex = n.durableCommitIndex := rfl
  have hlast : (hardened n).lastLogIndex = n.lastLogIndex := rfl
  have hindex : (hardened n).commitIndex = n.commitIndex := rfl
  simp only [Node.advanceFollowerCommit, hcommit, hlast, hindex, applyThrough_hardened]
  split <;> rfl

theorem acceptEntries_hardened (n : Node) (r : AppendEntries) (entries : List LogEntry)
    (truncateFrom : Nat) :
    (hardened n).acceptEntries r entries truncateFrom =
      (hardened (n.acceptEntries r entries truncateFrom).1,
        (n.acceptEntries r entries truncateFrom).2) := by
  have hlast : (hardened n).lastLogIndex = n.lastLogIndex := rfl
  have hdurable : (hardened n).durableLogIndex = n.durableLogIndex := rfl
  simp only [Node.acceptEntries, advanceFollowerCommit_hardened, hlast, hdurable]
  split
  · split <;> rfl
  · split <;> rfl

theorem answerEntries_hardened (n : Node) (r : AppendEntries) :
    (hardened n).answerEntries r = (hardened (n.answerEntries r).1, (n.answerEntries r).2) := by
  have hmatches : (hardened n).matchesAt r.prevLogIndex r.prevLogTerm =
      n.matchesAt r.prevLogIndex r.prevLogTerm := rfl
  have hscan : (hardened n).entriesToAppend r.prevLogIndex r.entries =
      n.entriesToAppend r.prevLogIndex r.entries := entriesFrom_hardened n _ _
  simp only [Node.answerEntries, hmatches, hscan, rejectEntries_hardened]
  split
  · rfl
  · split
    · rfl
    · exact acceptEntries_hardened n r _ _

theorem answerSnapshot_hardened (n : Node) (r : InstallSnapshot) :
    (hardened n).answerSnapshot r = (hardened (n.answerSnapshot r).1, (n.answerSnapshot r).2) := by
  have hbase : (hardened n).logBaseIndex = n.logBaseIndex := rfl
  simp only [Node.answerSnapshot, hbase]
  split <;> rfl

end QuorumKV.Runtime
