import Mathlib
import QuorumKV.Cluster.History

/-!
# A stale rejection

A Follower answers a request of an earlier term with its own term and without a
hint.  A Leader of that very term takes this for a conflict at the first
position, and sends its log from the start again, as much of it as fits in one
request.  Values that fill a request lead a cluster there.
-/

namespace QuorumKV.Cluster

open Raft QuorumKV.Runtime Session

/-! ## What the Leader sends -/

section Resending

variable {n : Node} {response : AppendEntriesResponse} {dest : NodeID}
  {request : AppendEntries}

theorem sendAppendEntriesTo_entries {peer : NodeID} {readID : ReadID}
    (h : .sendAppendEntries dest request ∈ (n.sendAppendEntriesTo peer readID).2) :
    request.entries =
      n.entriesBatch (request.prevLogIndex + 1) (min n.durableLogIndex n.lastLogIndex) := by
  simp only [Node.sendAppendEntriesTo] at h
  split at h
  · simp at h
  · generalize hnext : (if n.nextIndex peer = 0 ∨
        n.nextIndex peer > min n.durableLogIndex n.lastLogIndex + 1
      then min n.durableLogIndex n.lastLogIndex + 1 else n.nextIndex peer) = next at h
    have hpos : next - 1 + 1 = next := by
      split at hnext <;> omega
    split at h
    · split at h <;> simp at h
    · obtain ⟨-, rfl⟩ : dest = peer ∧ request = _ := by simpa using h
      simp only [hpos]

theorem acknowledgeRead_confirms {action : Action}
    (h : action ∈ (n.acknowledgeRead response).2) :
    ∃ readID index, action = .readConfirmed readID index := by
  unfold Node.acknowledgeRead at h
  split at h
  · simp at h
  · split at h
    · simp at h
    · dsimp only at h
      split at h
      · simp at h
      · simp only [Node.completeReads, List.mem_map] at h
        obtain ⟨read, -, rfl⟩ := h
        exact ⟨_, _, rfl⟩

theorem answered_entries
    (h : .sendAppendEntries dest request ∈ (n.step (.appendEntriesResponse response)).2) :
    request.entries =
      n.entriesBatch (request.prevLogIndex + 1) (min n.durableLogIndex n.lastLogIndex) := by
  have hkept : (n.recordResponse response).entriesBatch = n.entriesBatch ∧
      (n.recordResponse response).durableLogIndex = n.durableLogIndex ∧
      (n.recordResponse response).lastLogIndex = n.lastLogIndex := by
    unfold Node.recordResponse
    split <;> exact ⟨rfl, rfl, rfl⟩
  simp only [Node.step, Node.handleAppendEntriesResponse] at h
  split at h
  · simp [Node.persistHardState] at h
  · split at h
    · simp at h
    · split at h
      · simp at h
      · rcases List.mem_append.mp h with hsent | hread
        · simp only [Node.continueReplication] at hsent
          split at hsent
          · simp [Node.persistCommit] at hsent
          · split at hsent
            · rw [sendAppendEntriesTo_entries hsent, hkept.1, hkept.2.1, hkept.2.2]
            · simp at hsent
        · obtain ⟨_, _, heq⟩ := acknowledgeRead_confirms hread
          simp at heq

/-- The walk of `entriesBatch` stops before the entry that does not fit. -/
theorem batchCount_stops {front rest : List LogEntry} {entry : LogEntry} {bytes count : Nat}
    (hcount : 0 < count + front.length)
    (hfits : bytes + (front.map LogEntry.batchBytes).sum ≤ maxAppendEntriesBytes)
    (hover : maxAppendEntriesBytes <
      bytes + (front.map LogEntry.batchBytes).sum + entry.batchBytes) :
    Node.batchCount bytes count (front ++ entry :: rest) = count + front.length := by
  induction front generalizing bytes count with
  | nil =>
      simp only [List.length_nil, List.map_nil, List.sum_nil, Nat.add_zero] at hcount hover
      simp only [List.nil_append, Node.batchCount, List.length_nil]
      rw [if_pos ⟨hcount, hover⟩, Nat.add_zero]
  | cons first front ih =>
      simp only [List.map_cons, List.sum_cons, List.length_cons] at hfits hover ⊢
      rw [List.cons_append, Node.batchCount, if_neg (by omega), ih (by omega) (by omega) (by omega)]
      omega

end Resending

/-! ## The turn that takes the rejection in -/

section Turn

variable {config : Config} {id : NodeID} {since : Nat} {server : Server} {p : Process}
  {response : AppendEntriesResponse} {core : Node} {dest : NodeID} {request : AppendEntries}

theorem serve_resends (hp : server.process = some p)
    (hstep : p.core.step (.appendEntriesResponse response) =
      (core, [.sendAppendEntries dest request]))
    (hleader : p.core.role = .leader) (hleads : core.role = .leader) :
    server.serve config id since (.receive (.appendEntriesResponse response)) =
      some { server := { server with process := some { p with core := core } }
             sent := [⟨dest, .appendEntries request⟩] } := by
  have hrun : Runtime.step p.core server.disk (.appendEntriesResponse response) =
      .completed { core := core, disk := server.disk
                   emitted := [.sendAppendEntries dest request] } := by
    simp [Runtime.step, hstep, drain, drainWith, persist]
  simp [Server.serve, hp, prepare, Message.prepare, hrun, carryOutAll, carryOut, LoopState.send,
    afterActions, hleads, entered, hleader]

end Turn

/-! ## A run that leads there -/

def nodeA : NodeID := [65]

def nodeB : NodeID := [66]

def nodeC : NodeID := [67]

def sessionNumbered (n : UInt8) : SessionID := ⟨List.replicate 16 n, List.length_replicate⟩

abbrev deliver (position : Nat) : Command := .turn (.deliver position)

abbrev anything (_ : Cluster) (_ : Command) : Prop := True

/--
Node A leads in term 1 and replicates a session and two values.  B leads in term
2, appends three sessions of its own, and reaches nobody.  A leads again in terms
3 and 4; B votes for it in term 4 before a request of term 3 arrives, and rejects
that request.
-/
def opening (value : Bytes) : List Command :=
  [.start nodeA, .start nodeB, .start nodeC,
    .turn (.electionTimeout nodeA), deliver 0, deliver 2, deliver 3, deliver 5,
    .turn (.propose nodeA 1 (.session ⟨1, .openSession, sessionNumbered 7⟩)),
    deliver 6, deliver 7, deliver 8, deliver 9, deliver 10, deliver 11, deliver 12,
    .turn (.propose nodeA 2 (.set ⟨2, sessionNumbered 7, 1, [107], value⟩)),
    deliver 13, deliver 15, deliver 16, deliver 14, deliver 18, deliver 19, deliver 20,
    .turn (.propose nodeA 3 (.set ⟨2, sessionNumbered 7, 2, [107], value⟩)),
    deliver 17, deliver 22, deliver 23, deliver 24, deliver 21,
    .turn (.electionTimeout nodeC), .turn (.electionTimeout nodeB),
    deliver 30, deliver 31, deliver 33, deliver 34,
    .turn (.propose nodeB 4 (.session ⟨1, .openSession, sessionNumbered 1⟩)),
    .turn (.propose nodeB 5 (.session ⟨2, .openSession, sessionNumbered 2⟩)),
    .turn (.propose nodeB 6 (.session ⟨3, .openSession, sessionNumbered 3⟩)),
    deliver 35, .turn (.electionTimeout nodeA), deliver 39, deliver 40, deliver 42, deliver 43,
    .turn (.checkQuorumTimeout nodeA), .turn (.electionTimeout nodeA),
    deliver 46, deliver 48, deliver 49, deliver 51,
    .turn (.propose nodeA 7 (.set ⟨3, sessionNumbered 7, 3, [107], [1]⟩)),
    deliver 44, .turn (.deliveryFailed nodeA nodeB 14)]

def largeValue : Bytes := List.replicate (2 ^ 20) 0

theorem length_largeValue : largeValue.length = 2 ^ 20 := List.length_replicate

def contents (id : NodeID) (c : Cluster) : Option (List (Nat × Bytes)) :=
  (c.servers id).process.map fun p => p.core.log.map fun entry => (entry.key.length, entry.value)

-- The value stays a variable here: no step of the run looks into it.
set_option maxRecDepth 20000 in
theorem opening_contents (value : Bytes) :
    (follow threeNodes anything {} (opening value)).bind (contents nodeA) =
      some [(0, []), (0, []), (1, value), (1, value), (0, []), (0, []), (1, [1])] := by
  cbv

theorem batchCount_large {log : List LogEntry} {value : Bytes} (hvalue : value.length = 2 ^ 20)
    (h : log.map (fun entry => (entry.key.length, entry.value)) =
      [(0, []), (0, []), (1, value), (1, value), (0, []), (0, []), (1, [1])]) :
    Node.batchCount 0 0 log = 3 := by
  have hlength : log.length = 7 := by simpa using congrArg List.length h
  have hsplit : log = log.take 3 ++ log.get ⟨3, by omega⟩ :: log.drop 4 := by
    rw [List.get_eq_getElem, List.getElem_cons_drop, List.take_append_drop]
  have hsizes : log.map LogEntry.batchBytes =
      [64, 64, 65 + 2 ^ 20, 65 + 2 ^ 20, 64, 64, 66] := by
    have hbytes : LogEntry.batchBytes =
        (fun size : Nat × Bytes => 64 + size.1 + size.2.length) ∘
          fun entry => (entry.key.length, entry.value) := rfl
    rw [hbytes, ← List.map_map, h]
    simp only [List.map_cons, List.map_nil, hvalue, List.length_nil, List.length_cons]
  have hfront : (log.take 3).map LogEntry.batchBytes = [64, 64, 65 + 2 ^ 20] := by
    rw [List.map_take, hsizes]
    rfl
  have hnext : (log.get ⟨3, by omega⟩).batchBytes = 65 + 2 ^ 20 := by
    have hat := congrArg (·[3]?) hsizes
    simpa [List.getElem?_eq_getElem, hlength] using hat
  rw [hsplit, batchCount_stops]
  · simp [hlength]
  · simp [hlength]
  · simp [hfront, maxAppendEntriesBytes]
  · rw [hfront, hnext]
    simp [maxAppendEntriesBytes]

def rejected (c : Cluster) : Option (Process × AppendEntriesResponse) :=
  match c.network[(54 : Nat)]? with
  | some ⟨dest, .appendEntriesResponse response⟩ =>
      if dest = nodeA then (c.servers nodeA).process.map fun p => (p, response) else none
  | _ => none

/-- The Leader's only action on the rejection is a request from the start of its log. -/
def rewinds (c : Cluster) : Bool :=
  match c.rejected with
  | some (p, response) =>
      p.core.role == .leader && p.core.logBaseIndex == 0 &&
        p.core.lastLogIndex == 7 && p.core.durableLogIndex == 7 &&
        match p.core.step (.appendEntriesResponse response) with
        | (core, [.sendAppendEntries _ request]) =>
            core.role == .leader && request.prevLogIndex == 0
        | _ => false
  | none => false

/-- The cluster after that turn, with the three entries that fit in the request. -/
def resend (c : Cluster) : Cluster :=
  match c.rejected with
  | some (p, response) =>
      match p.core.step (.appendEntriesResponse response) with
      | (core, [.sendAppendEntries dest request]) =>
          c.after nodeA
            { server := { c.servers nodeA with process := some { p with core := core } }
              sent := [⟨dest, .appendEntries { request with entries := p.core.log.take 3 }⟩] }
      | _ => c
  | none => c

theorem step_resend {c : Cluster} {value : Bytes} (hvalue : value.length = 2 ^ 20)
    (hrewinds : c.rewinds = true) (hcontents : contents nodeA c = some
      [(0, []), (0, []), (1, value), (1, value), (0, []), (0, []), (1, [1])]) :
    c.step threeNodes (deliver 54) = some c.resend := by
  unfold rewinds at hrewinds
  split at hrewinds
  next p response hrejected =>
    have hresend : c.resend = match p.core.step (.appendEntriesResponse response) with
        | (core, [.sendAppendEntries dest request]) =>
            c.after nodeA
              { server := { c.servers nodeA with process := some { p with core := core } }
                sent := [⟨dest, .appendEntries { request with entries := p.core.log.take 3 }⟩] }
        | _ => c := by
      simp only [resend, hrejected]
    unfold rejected at hrejected
    split at hrejected
    next dest response' hpacket =>
      split at hrejected
      next hdest =>
        obtain ⟨q, hq, heq⟩ := Option.map_eq_some_iff.mp hrejected
        obtain ⟨rfl, rfl⟩ : q = p ∧ response' = response := by simpa using heq
        simp only [Bool.and_eq_true, beq_iff_eq] at hrewinds
        obtain ⟨⟨⟨⟨hrole, hbase⟩, hlast⟩, hdurable⟩, hsent⟩ := hrewinds
        split at hsent
        next core dest' request hstep =>
          simp only [Bool.and_eq_true, beq_iff_eq] at hsent
          obtain ⟨hleads, hprev⟩ := hsent
          have hlog := Option.some.inj ((congrArg (Option.map _) hq).symm.trans hcontents)
          have hentries : request.entries = q.core.log.take 3 := by
            have hlength : q.core.log.length = 7 := by simpa using congrArg List.length hlog
            have hmem : .sendAppendEntries dest' request ∈
                (q.core.step (.appendEntriesResponse response')).2 := by simp [hstep]
            rw [answered_entries hmem, hprev, hlast, hdurable]
            simp [Node.entriesBatch, hlast, hbase, List.take_of_length_le hlength.le,
              batchCount_large hvalue hlog]
          rw [hresend, hstep]
          simp only [Cluster.step, select, hpacket, hdest, ← hentries,
            serve_resends hq hstep hrole hleads, Option.map_some]
        · simp at hsent
      · simp at hrejected
    · simp at hrejected
  · simp at hrewinds

theorem opened_rewinds :
    (follow threeNodes anything {} (opening largeValue)).any rewinds = true := by
  decide +kernel

def resent : Cluster := ((follow threeNodes anything {} (opening largeValue)).getD {}).resend

theorem resent_reached : Run threeNodes anything {} resent := by
  have hrewinds := opened_rewinds
  have hcontents := opening_contents largeValue
  unfold resent
  generalize hfollow : follow threeNodes anything {} (opening largeValue) = reached
    at hrewinds hcontents ⊢
  cases reached with
  | none => simp at hrewinds
  | some c =>
      exact .next (.of_follow hfollow) trivial
        (step_resend length_largeValue (by simpa using hrewinds) (by simpa using hcontents))

/-- The Leader counts a Follower that has other entries, and the Follower leads after it. -/
def closing : List Command :=
  [deliver 55, deliver 56, .turn (.electionTimeout nodeB), deliver 59, deliver 60, deliver 62,
    deliver 63, deliver 65, deliver 66, deliver 67, deliver 68]

end QuorumKV.Cluster
