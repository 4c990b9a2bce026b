import QuorumKV.Runtime.Server

/-!
# A cluster of Nodes

The Nodes of one Cluster, the messages ever sent, and what the run has shown.
A message stays in the network, so it can be delivered late, twice, out of
order, or never.  One command is one turn of a loop, a crash, a start, or one
step of a local Snapshot; any of them can come at any time.
-/

namespace QuorumKV

open Raft QuorumKV.Runtime

structure Cluster where
  servers : NodeID → Server := fun _ => {}
  network : List Packet := []
  trace : List Observation := []

namespace Cluster

/-- What a loop selects next: a timer, a client, a failed delivery, or a message sent. -/
inductive Selection where
  | electionTimeout (id : NodeID)
  | heartbeatTimeout (id : NodeID)
  | checkQuorumTimeout (id : NodeID)
  | propose (id : NodeID) (client : Nat) (proposal : Proposal)
  | read (id : NodeID) (readID : ReadID) (key : Bytes)
  | deliveryFailed (id dest : NodeID) (requestID : Nat)
  | deliver (position : Nat)

inductive Command where
  | turn (selection : Selection)
  | crashDuring (selection : Selection) (calls kept : Nat)
  | crash (id : NodeID)
  | start (id : NodeID)
  | capture (id : NodeID)
  | advanceCapture (id : NodeID)
  | abandonCapture (id : NodeID)
  | cancel (id : NodeID) (client : Nat)
  | cancelRead (id : NodeID) (readID : ReadID)

def select (c : Cluster) : Selection → Option (NodeID × Input)
  | .electionTimeout id => some (id, .electionTimeout)
  | .heartbeatTimeout id => some (id, .heartbeatTimeout)
  | .checkQuorumTimeout id => some (id, .checkQuorumTimeout)
  | .propose id client proposal => some (id, .propose client proposal)
  | .read id readID key => some (id, .read readID key)
  | .deliveryFailed id dest requestID => some (id, .deliveryFailed dest requestID)
  | .deliver position =>
      match c.network[position]? with
      | none => none
      | some packet => some (packet.dest, .receive packet.message)

def after (c : Cluster) (id : NodeID) (turn : Turn) : Cluster :=
  { servers := Function.update c.servers id turn.server
    network := c.network ++ turn.sent
    trace := c.trace ++ turn.observed }

def replace (c : Cluster) (id : NodeID) (server : Server) : Cluster :=
  { c with servers := Function.update c.servers id server }

def step (config : Config) (c : Cluster) : Command → Option Cluster
  | .turn selection =>
      match c.select selection with
      | none => none
      | some (id, input) =>
          ((c.servers id).serve config id c.trace.length input).map (c.after id)
  | .crashDuring selection calls kept =>
      match c.select selection with
      | none => none
      | some (id, input) =>
          ((c.servers id).crashDuring config id c.trace.length input calls kept).map
            (c.after id)
  | .crash id => some (c.replace id { c.servers id with process := none })
  | .start id =>
      if id ∈ config.members then ((c.servers id).start config id).map (c.after id) else none
  | .capture id => ((c.servers id).capture config id).map (c.replace id)
  | .advanceCapture id => (c.servers id).advanceCapture.map (c.replace id)
  | .abandonCapture id => (c.servers id).abandonCapture.map (c.replace id)
  | .cancel id client => ((c.servers id).cancel client).map (c.replace id)
  | .cancelRead id readID => ((c.servers id).cancelRead readID).map (c.replace id)

inductive Upkeep (config : Config) (id : NodeID) (server : Server) : Command → Server → Prop where
  | crash : Upkeep config id server (.crash id) { server with process := none }
  | capture {server' : Server} (done : server.capture config id = some server') :
      Upkeep config id server (.capture id) server'
  | advanceCapture {server' : Server} (done : server.advanceCapture = some server') :
      Upkeep config id server (.advanceCapture id) server'
  | abandonCapture {server' : Server} (done : server.abandonCapture = some server') :
      Upkeep config id server (.abandonCapture id) server'
  | cancel {client : Nat} {server' : Server} (done : server.cancel client = some server') :
      Upkeep config id server (.cancel id client) server'
  | cancelRead {readID : ReadID} {server' : Server}
      (done : server.cancelRead readID = some server') :
      Upkeep config id server (.cancelRead id readID) server'

inductive Does (config : Config) (c : Cluster) : Command → Cluster → Prop where
  | turn {selection : Selection} {id : NodeID} {input : Input} {turn : Turn}
      (selected : c.select selection = some (id, input))
      (served : (c.servers id).serve config id c.trace.length input = some turn) :
      Does config c (.turn selection) (c.after id turn)
  | crashDuring {selection : Selection} {calls kept : Nat} {id : NodeID} {input : Input}
      {turn : Turn} (selected : c.select selection = some (id, input))
      (crashed : (c.servers id).crashDuring config id c.trace.length input calls kept =
        some turn) :
      Does config c (.crashDuring selection calls kept) (c.after id turn)
  | start {id : NodeID} {turn : Turn} (member : id ∈ config.members)
      (started : (c.servers id).start config id = some turn) :
      Does config c (.start id) (c.after id turn)
  | upkeep {id : NodeID} {command : Command} {server' : Server}
      (kept : Upkeep config id (c.servers id) command server') :
      Does config c command (c.replace id server')

theorem step_does {config : Config} {c c' : Cluster} {command : Command}
    (h : c.step config command = some c') : Does config c command c' := by
  cases command with
  | turn selection =>
      simp only [step] at h
      split at h
      · simp at h
      next hselect =>
        obtain ⟨turn, hserve, rfl⟩ := Option.map_eq_some_iff.mp h
        exact .turn hselect hserve
  | crashDuring selection calls kept =>
      simp only [step] at h
      split at h
      · simp at h
      next hselect =>
        obtain ⟨turn, hcrash, rfl⟩ := Option.map_eq_some_iff.mp h
        exact .crashDuring hselect hcrash
  | crash id =>
      obtain rfl := Option.some.inj h
      exact .upkeep .crash
  | start id =>
      simp only [step] at h
      split at h
      next hmember =>
        obtain ⟨turn, hstart, rfl⟩ := Option.map_eq_some_iff.mp h
        exact .start hmember hstart
      · simp at h
  | capture id =>
      obtain ⟨server, hserver, rfl⟩ := Option.map_eq_some_iff.mp h
      exact .upkeep (.capture hserver)
  | advanceCapture id =>
      obtain ⟨server, hserver, rfl⟩ := Option.map_eq_some_iff.mp h
      exact .upkeep (.advanceCapture hserver)
  | abandonCapture id =>
      obtain ⟨server, hserver, rfl⟩ := Option.map_eq_some_iff.mp h
      exact .upkeep (.abandonCapture hserver)
  | cancel id client =>
      obtain ⟨server, hserver, rfl⟩ := Option.map_eq_some_iff.mp h
      exact .upkeep (.cancel hserver)
  | cancelRead id readID =>
      obtain ⟨server, hserver, rfl⟩ := Option.map_eq_some_iff.mp h
      exact .upkeep (.cancelRead hserver)

/-- The core and the event of a command that steps a runtime. -/
def stepped (config : Config) (c : Cluster) : Command → Option (NodeID × Node × Event)
  | .turn selection | .crashDuring selection _ _ =>
      match c.select selection with
      | none => none
      | some (id, input) =>
          match (c.servers id).process with
          | none => none
          | some process =>
              match prepare config id c.trace.length process input with
              | some (.stepped process _ event _) => some (id, process.core, event)
              | _ => none
  | _ => none

/-- The position and term of the Snapshot that an event makes a core install. -/
def installs (core : Node) : Event → Option (Nat × Nat)
  | .installSnapshot request =>
      if request.success = true ∧ request.done = true ∧ core.term ≤ request.term ∧
          core.logBaseIndex < request.snapshotIndex then
        some (request.snapshotIndex, request.snapshotTerm)
      else none
  | _ => none

/-- Runs whose every command is allowed in the state it is taken in. -/
inductive Run (config : Config) (allowed : Cluster → Command → Prop) :
    Cluster → Cluster → Prop where
  | refl (c : Cluster) : Run config allowed c c
  | next {c c' c'' : Cluster} {command : Command} (before : Run config allowed c c')
      (permitted : allowed c' command) (stepped : c'.step config command = some c'') :
      Run config allowed c c''

/--
A rejection of an older term's request: it carries the responder's newer term
but no hint about its log.
-/
def staleRejection (core : Node) (response : AppendEntriesResponse) : Prop :=
  core.role = .leader ∧ response.term = core.term ∧ response.success = false ∧
    response.conflictIndex = 0 ∧
    ¬ ((core.appendInFlight response.sender).requestID ≠ 0 ∧ response.requestID ≠ 0 ∧
      response.requestID ≠ (core.appendInFlight response.sender).requestID)

/-- No Leader takes in a stale rejection that carries its own term. -/
def genuine (c : Cluster) : Command → Prop
  | .turn (.deliver position) | .crashDuring (.deliver position) _ _ =>
      ∀ dest response process,
        c.network[position]? = some ⟨dest, .appendEntriesResponse response⟩ →
        (c.servers dest).process = some process → ¬ staleRejection process.core response
  | _ => True

/--
A mutation is answered, or joined to the same one in flight, without a proposal
only by a node that has applied all that any node has committed.
-/
def current (c : Cluster) : Command → Prop
  | .turn (.propose id client proposal) =>
      ∀ process answered observed, (c.servers id).process = some process →
        prepareProposal id c.trace.length process client proposal =
          .answered answered observed →
        ∀ other, (c.servers other).disk.commitIndex ≤ process.core.lastApplied
  | _ => True

end Cluster

end QuorumKV
