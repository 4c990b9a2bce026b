import QuorumKV.Raft.Types

/-!
# The client's search for a Leader

`withLeader` repeats a call, at the address that a Node hints at or, after a pause, at
the next configured one.  What connections, calls and pauses give is up to the world,
attempt by attempt; how long a pause is does not matter here.
-/

namespace QuorumKV.Client

open Raft

abbrev Address := Bytes

inductive Detail where
  | notLeader (leaderAddress : Address)
  | other

structure Status where
  code : UInt32
  details : List Detail := []

def unavailable : UInt32 := 14

def leaderHint : List Detail → Option Address
  | [] => none
  | .notLeader address :: details => if address ≠ [] then some address else leaderHint details
  | .other :: details => leaderHint details

inductive Outcome where
  | succeeded
  | failed (err : Status)
  | noConnection
  | contextDone
  | noStableLeader
  | noAddress

def Retryable (err : Status) : Prop := (leaderHint err.details).isSome ∨ err.code = unavailable

/-- The outcome is the first definite answer: only calls without one are repeated. -/
inductive Ends : List (Address × Option Status) → Outcome → Prop
  | succeeded (address : Address) : Ends [(address, none)] .succeeded
  | failed (address : Address) (err : Status) (definite : ¬ Retryable err) :
      Ends [(address, some err)] (.failed err)
  | noConnection : Ends [] .noConnection
  | contextDone : Ends [] .contextDone
  | noStableLeader : Ends [] .noStableLeader
  | again (address : Address) (err : Status) (retryable : Retryable err) {calls outcome}
      (later : Ends calls outcome) : Ends ((address, some err) :: calls) outcome

end QuorumKV.Client
