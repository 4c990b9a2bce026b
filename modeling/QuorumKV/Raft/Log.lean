import QuorumKV.Raft.Types

/-!
# Log operations of the consensus core

The helpers of `raft.go` that read or change the log.  Positions at or below
`logBaseIndex` live in a Snapshot, so a position `i` above the base is found at
offset `i - logBaseIndex - 1` of the log.  An offset outside the log is a panic
in the source; here it reads as the zero value.
-/

namespace QuorumKV.Raft

/-- `1<<20 + 4<<10` of the source. -/
def maxAppendEntriesBytes : Nat := 1 <<< 20 + 4 <<< 10

/-- The size `entriesBatch` charges for one entry. -/
def LogEntry.batchBytes (entry : LogEntry) : Nat :=
  64 + entry.key.length + entry.value.length

namespace Node

def quorum (n : Node) : Nat := (n.peers.length + 1) / 2 + 1

def termAt (n : Node) (index : Nat) : Nat :=
  if index = n.logBaseIndex then n.logBaseTerm
  else if index ≤ n.logBaseIndex ∨ index > n.lastLogIndex then 0
  else (n.log[index - n.logBaseIndex - 1]?).elim 0 LogEntry.term

def matchesAt (n : Node) (index term : Nat) : Bool :=
  (index == 0 && term == 0) || (index ≤ n.lastLogIndex && n.termAt index == term)

def appendEntries (n : Node) (entries : List LogEntry) : Node :=
  let log := n.log ++ entries
  { n with
    log := log
    lastLogIndex := (log.getLast?).elim 0 LogEntry.index
    lastLogTerm := (log.getLast?).elim 0 LogEntry.term }

def truncateLog (n : Node) (firstIndex : Nat) : Node :=
  let n := { n with
    log := n.log.take (firstIndex - n.logBaseIndex - 1)
    lastLogIndex := firstIndex - 1 }
  { n with
    lastLogTerm := n.termAt n.lastLogIndex
    durableLogIndex := min n.durableLogIndex n.lastLogIndex }

def compactLog (n : Node) (index term : Nat) : Node :=
  if index ≤ n.logBaseIndex ∨ index > n.lastApplied ∨ n.termAt index ≠ term then n
  else
    { n with
      log := n.log.drop (index - n.logBaseIndex)
      logBaseIndex := index
      logBaseTerm := term }

/--
The byte-bounded walk of `entriesBatch`: how many leading entries fit, where the
first entry is taken whatever its size.
-/
def batchCount (bytes count : Nat) : List LogEntry → Nat
  | [] => count
  | entry :: rest =>
      if count ≥ 1 ∧ bytes + entry.batchBytes > maxAppendEntriesBytes then count
      else batchCount (bytes + entry.batchBytes) (count + 1) rest

def entriesBatch (n : Node) (first last : Nat) : List LogEntry :=
  if first = 0 ∨ first > last ∨ last > n.lastLogIndex then []
  else if first ≤ n.logBaseIndex then []
  else
    let range := (n.log.drop (first - n.logBaseIndex - 1)).take (last - first + 1)
    range.take (batchCount 0 0 range)

/-- The walk of `conflictHint` down to the first position of the same term. -/
def conflictFirst (n : Node) (term : Nat) : Nat → Nat
  | 0 => 0
  | first + 1 =>
      if first + 1 > n.logBaseIndex + 1 ∧ n.termAt first = term
      then conflictFirst n term first
      else first + 1

def conflictHint (n : Node) (index : Nat) : Nat × Nat :=
  if index = 0 ∨ index > n.lastLogIndex then (0, n.lastLogIndex + 1)
  else (n.termAt index, n.conflictFirst (n.termAt index) index)

/-- The last position at or below `index`, and above zero, holding `term`. -/
def lastOfTerm (n : Node) (term : Nat) : Nat → Option Nat
  | 0 => none
  | index + 1 =>
      if n.termAt (index + 1) = term then some (index + 1)
      else lastOfTerm n term index

/-- The position a rejection leads to, before `nextIndexFromConflict` clamps it. -/
def conflictNext (n : Node) (response : AppendEntriesResponse) : Nat :=
  if response.conflictTerm ≠ 0 then
    match n.lastOfTerm response.conflictTerm n.lastLogIndex with
    | some index => index + 1
    | none => response.conflictIndex
  else response.conflictIndex

def nextIndexFromConflict (n : Node) (response : AppendEntriesResponse) : Nat :=
  let next := n.conflictNext response
  min (if next = 0 then 1 else next) (n.lastLogIndex + 1)

/--
The scan of `entriesToAppend` from position `want` on: the entries to append,
the position to truncate from (zero for none), or `none` when the request is
refused.
-/
def entriesFrom (n : Node) (want : Nat) : List LogEntry → Option (List LogEntry × Nat)
  | [] => some ([], 0)
  | entry :: rest =>
      if entry.index ≠ want then none
      else if entry.index ≤ n.lastLogIndex then
        if n.termAt entry.index ≠ entry.term then
          if entry.index ≤ n.commitIndex then none
          else some (entry :: rest, entry.index)
        else entriesFrom n (want + 1) rest
      else if entry.index ≠ n.lastLogIndex + 1 then none
      else some (entry :: rest, 0)

def entriesToAppend (n : Node) (prevIndex : Nat) (entries : List LogEntry) :
    Option (List LogEntry × Nat) :=
  n.entriesFrom (prevIndex + 1) entries

end Node

end QuorumKV.Raft
