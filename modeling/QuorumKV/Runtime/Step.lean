import QuorumKV.Raft.Step

/-!
# The core and its durable state

`raftRuntime.step` of `internal/node/raft_runtime.go`: the actions of an event
are taken in order, each durability action is written to the WAL before its
completion is stepped, and the other actions are collected for the caller.

The WAL stands here as the state it would recover, with the checks its calls
make.  `writes` lists the calls that completed, so that a crash can be placed
after any of them.  The observers and metrics of the source are left out.
-/

namespace QuorumKV.Runtime

open Raft

/-- One call on the WAL. -/
inductive Write where
  | hardState (state : HardState)
  | truncation (first : Nat)
  | entries (entries : List LogEntry)
  | commitIndex (index : Nat)
  | snapshot (index term : Nat) (retainSuffix : Bool)
  deriving DecidableEq, Repr

/-- `SaveLogEntries` wants each entry one past the one before. -/
def consecutive (last : Nat) : List LogEntry → Bool
  | [] => true
  | entry :: entries => entry.index == last + 1 && consecutive (last + 1) entries

abbrev Disk := RecoveredState

namespace Disk

def lastIndex (disk : Disk) : Nat := disk.snapshotIndex + disk.log.length

/-- The WAL after a call, `none` when the call is refused. -/
def save (disk : Disk) : Write → Option Disk
  | .hardState state => some { disk with hardState := state }
  | .truncation first =>
      if first = 0 ∨ first > lastIndex disk + 1 ∨ first ≤ disk.commitIndex then none
      else some { disk with log := disk.log.take (first - disk.snapshotIndex - 1) }
  | .entries entries =>
      if entries = [] ∨ consecutive (lastIndex disk) entries = false then none
      else some { disk with log := disk.log ++ entries }
  | .commitIndex index =>
      if index < disk.commitIndex ∨ index > lastIndex disk then none
      else some { disk with commitIndex := index }
  | .snapshot index term retainSuffix =>
      if index = 0 ∨ term = 0 ∨ index < disk.snapshotIndex ∨
          (retainSuffix = false ∧ index < disk.commitIndex) then none
      else
        some { disk with
          log := if retainSuffix then disk.log.drop (index - disk.snapshotIndex) else []
          commitIndex := max disk.commitIndex index
          snapshotIndex := index
          snapshotTerm := term }

/-- `Compact`.  A position the WAL has passed already changes nothing. -/
def compact (disk : Disk) (index term : Nat) : Option Disk :=
  if index = 0 ∨ index > disk.commitIndex then none
  else if index ≤ disk.snapshotIndex then some disk
  else
    some { disk with
      log := disk.log.drop (index - disk.snapshotIndex)
      snapshotIndex := index
      snapshotTerm := term }

def interrupt (disk : Disk) (kept : Nat) : Write → Disk
  | .entries entries => { disk with log := disk.log ++ entries.take kept }
  | _ => disk

end Disk

/-- The calls a durability action makes, and the event that reports them done. -/
def persist : Action → Option (List Write × Event)
  | .persistHardState id term votedFor =>
      some ([.hardState ⟨term, votedFor⟩], .hardStatePersisted id)
  | .persistLogEntries id truncateFrom entries =>
      some ((if truncateFrom ≠ 0 then [.truncation truncateFrom] else []) ++ [.entries entries],
        .logEntriesPersisted id)
  | .persistCommitIndex id index => some ([.commitIndex index], .commitIndexPersisted id)
  | .persistSnapshot id index term retainSuffix =>
      some ([.snapshot index term retainSuffix], .snapshotPersisted id)
  | _ => none

/-- A step on its way: the calls made and the actions collected so far. -/
structure Progress where
  core : Node
  disk : Disk
  writes : List Write := []
  emitted : List Action := []

def Progress.save (progress : Progress) : List Write → Progress × Bool
  | [] => (progress, true)
  | write :: writes =>
      match Disk.save progress.disk write with
      | none => (progress, false)
      | some disk =>
          { progress with disk := disk, writes := progress.writes ++ [write] }.save writes

/-- How a step ends; it does not return while it is `exhausted`. -/
inductive Outcome where
  | completed (progress : Progress)
  | refused (progress : Progress)
  | exhausted

/-- The loop of `step` up to the next durability action. -/
def drainWith (next : Progress → List Action → Outcome) : Progress → List Action → Outcome
  | progress, [] => .completed progress
  | progress, action :: pending =>
      match persist action with
      | none => drainWith next { progress with emitted := progress.emitted ++ [action] } pending
      | some (writes, completion) =>
          match progress.save writes with
          | (progress, false) => .refused progress
          | (progress, true) =>
              let stepped := progress.core.step completion
              next { progress with core := stepped.1 } (pending ++ stepped.2)

/-- The loop of `step`, through at most `fuel` durability actions. -/
def drain : Nat → Progress → List Action → Outcome
  | 0 => drainWith fun _ _ => .exhausted
  | fuel + 1 => drainWith (drain fuel)

/-- No event needs more than three durability actions in a row. -/
def step (core : Node) (disk : Disk) (event : Event) : Outcome :=
  let stepped := core.step event
  drain 3 { core := stepped.1, disk := disk } stepped.2

def Outcome.writes : Outcome → List Write
  | .completed progress => progress.writes
  | .refused progress => progress.writes
  | .exhausted => []

/-- The actions that a step leaves to the loop, when it completes. -/
def Outcome.emitted : Outcome → List Action
  | .completed progress => progress.emitted
  | .refused _ | .exhausted => []

def crashed (disk : Disk) (kept : Nat) : Nat → List Write → Disk
  | _, [] => disk
  | 0, write :: _ => Disk.interrupt disk kept write
  | calls + 1, write :: writes =>
      match Disk.save disk write with
      | none => disk
      | some disk => crashed disk kept calls writes

end QuorumKV.Runtime
