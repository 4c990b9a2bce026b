import QuorumKV.Raft.Standing
import QuorumKV.Cluster.Incarnation

/-!
# Contact between a Leader and its peers

Which peers a heartbeat round reaches, and which responses keep a Leader in
office.  A request is sent to a peer unless one of the same kind is in flight to
it.  A heartbeat forgets the appends in flight but not the Snapshots, and only
the response to the append in flight counts as contact.
-/

namespace QuorumKV.Raft

def Action.requests (peer : NodeID) : Action → Bool
  | .sendAppendEntries dest _ => dest == peer
  | .sendInstallSnapshot dest _ _ _ _ _ => dest == peer
  | _ => false

namespace Node

/-- The position at which `sendAppendEntriesTo` continues a peer's log. -/
def requestIndex (n : Node) (peer : NodeID) : Nat :=
  if n.nextIndex peer = 0 ∨ n.nextIndex peer > min n.durableLogIndex n.lastLogIndex + 1 then
    min n.durableLogIndex n.lastLogIndex + 1
  else n.nextIndex peer

/-- The peer needs a Snapshot and one is held to be on its way. -/
def Stalled (n : Node) (peer : NodeID) : Prop :=
  n.requestIndex peer ≤ n.logBaseIndex ∧ n.snapshotInFlight peer ≠ 0

def Waiting (n : Node) (peer : NodeID) : Prop :=
  (n.appendInFlight peer).requestID ≠ 0 ∨ n.Stalled peer

instance (n : Node) (peer : NodeID) : Decidable (n.Stalled peer) :=
  inferInstanceAs (Decidable (_ ∧ _))

section Sending

variable {n : Node} {peer other : NodeID} {readID : ReadID}

theorem sendAppendEntriesTo_waiting (h : n.Waiting peer) :
    n.sendAppendEntriesTo peer readID = (n, []) := by
  by_cases hflight : (n.appendInFlight peer).requestID = 0
  · obtain ⟨hindex, hsent⟩ := h.resolve_left (not_not.mpr hflight)
    have hunfold : n.sendAppendEntriesTo peer readID =
        if n.requestIndex peer ≤ n.logBaseIndex then _ else _ := if_neg (not_not.mpr hflight)
    rw [hunfold, if_pos hindex, if_pos hsent]
  · exact if_pos hflight

theorem sendAppendEntriesTo_sends (h : ¬ n.Waiting peer) :
    (n.sendAppendEntriesTo peer readID).1.Waiting peer ∧
      (n.sendAppendEntriesTo peer readID).2.countP (Action.requests peer) = 1 := by
  obtain ⟨hflight, hstalled⟩ := not_or.mp h
  have hunfold : n.sendAppendEntriesTo peer readID =
      if n.requestIndex peer ≤ n.logBaseIndex then _ else _ := if_neg hflight
  rw [hunfold]
  by_cases hindex : n.requestIndex peer ≤ n.logBaseIndex
  · have hnone : ¬ n.snapshotInFlight peer ≠ 0 := fun hne => hstalled ⟨hindex, hne⟩
    rw [if_pos hindex, if_neg hnone]
    refine ⟨.inr ⟨hindex, ?_⟩, by simp [Action.requests]⟩
    simp
  · rw [if_neg hindex]
    refine ⟨.inl ?_, by simp [Action.requests]⟩
    simp

theorem sendAppendEntriesTo_other (hne : other ≠ peer) :
    (n.sendAppendEntriesTo other readID).1.appendInFlight peer = n.appendInFlight peer ∧
      ((n.sendAppendEntriesTo other readID).1.Stalled peer ↔ n.Stalled peer) ∧
      (n.sendAppendEntriesTo other readID).2.countP (Action.requests peer) = 0 := by
  by_cases h : n.Waiting other
  · rw [sendAppendEntriesTo_waiting h]
    exact ⟨rfl, Iff.rfl, rfl⟩
  obtain ⟨hflight, hstalled⟩ := not_or.mp h
  have hunfold : n.sendAppendEntriesTo other readID =
      if n.requestIndex other ≤ n.logBaseIndex then _ else _ := if_neg hflight
  rw [hunfold]
  by_cases hindex : n.requestIndex other ≤ n.logBaseIndex
  · have hnone : ¬ n.snapshotInFlight other ≠ 0 := fun hne => hstalled ⟨hindex, hne⟩
    rw [if_pos hindex, if_neg hnone]
    simp [Stalled, requestIndex, Action.requests, Function.update_of_ne hne.symm, hne]
  · rw [if_neg hindex]
    simp [Stalled, requestIndex, Action.requests, Function.update_of_ne hne.symm, hne]

theorem sendAppendEntriesTo_stalled (h : n.Stalled peer) :
    (n.sendAppendEntriesTo other readID).1.Stalled peer := by
  by_cases hother : other = peer
  · subst hother
    rwa [sendAppendEntriesTo_waiting (.inr h)]
  · exact (sendAppendEntriesTo_other hother).2.1.mpr h

theorem sendToPeers_stalled {n : Node} (peers : List NodeID) (h : n.Stalled peer) :
    (sendToPeers readID peers n).1.Stalled peer := by
  induction peers generalizing n with
  | nil => exact h
  | cons first peers ih => exact ih (sendAppendEntriesTo_stalled h)

theorem sendToPeers_waiting {n : Node} (peers : List NodeID) (h : n.Waiting peer) :
    (sendToPeers readID peers n).2.countP (Action.requests peer) = 0 := by
  induction peers generalizing n with
  | nil => rfl
  | cons first peers ih =>
      simp only [sendToPeers, List.countP_append]
      by_cases hfirst : first = peer
      · subst hfirst
        rw [sendAppendEntriesTo_waiting h]
        simpa using ih h
      · obtain ⟨hflight, hstalled, hnone⟩ := @sendAppendEntriesTo_other n peer first
          (if readID = 0 then n.pendingReadFor first else readID) hfirst
        rw [hnone, Nat.zero_add]
        exact ih (by rwa [Waiting, hflight, hstalled])

theorem sendToPeers_reaches {n : Node} {peers : List NodeID} (hmem : peer ∈ peers)
    (h : ¬ n.Waiting peer) :
    (sendToPeers readID peers n).2.countP (Action.requests peer) = 1 := by
  induction peers generalizing n with
  | nil => simp at hmem
  | cons first peers ih =>
      simp only [sendToPeers, List.countP_append]
      by_cases hfirst : first = peer
      · subst hfirst
        obtain ⟨hwaiting, hone⟩ := @sendAppendEntriesTo_sends n first
          (if readID = 0 then n.pendingReadFor first else readID) h
        rw [hone, sendToPeers_waiting peers hwaiting]
      · obtain ⟨hflight, hstalled, hnone⟩ := @sendAppendEntriesTo_other n peer first
          (if readID = 0 then n.pendingReadFor first else readID) hfirst
        rw [hnone, Nat.zero_add]
        refine ih ((List.mem_cons.mp hmem).resolve_left (Ne.symm hfirst)) ?_
        rwa [Waiting, hflight, hstalled]

/-! ## Heartbeats -/

theorem heartbeatRound_leader (h : n.role = .leader) :
    n.heartbeatRound =
      ((sendToPeers 0 n.peers { n with appendInFlight := fun _ => {} }).1,
        .resetHeartbeatTimer ::
          (sendToPeers 0 n.peers { n with appendInFlight := fun _ => {} }).2) :=
  if_neg (not_not.mpr h)

theorem heartbeatRound_stalled (hleader : n.role = .leader) (h : n.Stalled peer) :
    n.heartbeatRound.1.Stalled peer ∧
      n.heartbeatRound.2.countP (Action.requests peer) = 0 := by
  have hcleared : ({ n with appendInFlight := fun _ => {} } : Node).Stalled peer := h
  rw [heartbeatRound_leader hleader]
  refine ⟨sendToPeers_stalled n.peers hcleared, ?_⟩
  simp [Action.requests, sendToPeers_waiting n.peers (Or.inr hcleared)]

theorem heartbeatRound_reaches (hleader : n.role = .leader) (hpeer : peer ∈ n.peers)
    (h : ¬ n.Stalled peer) : n.heartbeatRound.2.countP (Action.requests peer) = 1 := by
  have hcleared : ¬ ({ n with appendInFlight := fun _ => {} } : Node).Waiting peer :=
    not_or.mpr ⟨by simp, h⟩
  rw [heartbeatRound_leader hleader]
  simp [Action.requests, sendToPeers_reaches hpeer hcleared]

def heartbeats (n : Node) (rounds : Nat) : Node :=
  (fun n => (step n .heartbeatTimeout).1)^[rounds] n

theorem heartbeats_stalled (hleader : n.role = .leader) (h : n.Stalled peer) (rounds : Nat) :
    (n.heartbeats rounds).role = .leader ∧ (n.heartbeats rounds).Stalled peer := by
  induction rounds generalizing n with
  | zero => exact ⟨hleader, h⟩
  | succ rounds ih =>
      have hrole : n.heartbeatRound.1.role = .leader := by
        rw [← hleader]
        exact congrArg Standing.role standing_heartbeatRound
      exact ih hrole (heartbeatRound_stalled hleader h).1

end Sending

/-! ## Terms of office -/

def contacts (n : Node) : List Event → Finset NodeID
  | [] => ∅
  | event :: events => (n.contact event).toFinset ∪ (n.step event).1.contacts events

def Begins (n : Node) (event : Event) (begun : Node) : Prop :=
  (n.step event).1 = begun ∧ begun.role = .leader ∧
    (n.role = .leader → event = .checkQuorumTimeout)

def InOffice (n : Node) : List Event → Prop
  | [] => n.role = .leader
  | event :: events =>
      n.role = .leader ∧ event ≠ .checkQuorumTimeout ∧ (n.step event).1.InOffice events

/-- An event is no response of the core's term, or answers the append in flight. -/
def Answers (n : Node) : Event → Prop
  | .appendEntriesResponse response => response.term = n.term → ¬ n.Outdated response
  | .installSnapshotResponse response => response.term ≠ n.term
  | _ => True

def AllAnswer (n : Node) : List Event → Prop
  | [] => True
  | event :: events => n.Answers event ∧ (n.step event).1.AllAnswer events

end Node

def Event.responder (term : Nat) : Event → Option NodeID
  | .appendEntriesResponse response => if response.term = term then some response.sender else none
  | .installSnapshotResponse response =>
      if response.term = term then some response.sender else none
  | _ => none

def responders (term : Nat) (events : List Event) : Finset NodeID :=
  (events.filterMap (Event.responder term)).toFinset

theorem responders_cons (term : Nat) (event : Event) (events : List Event) :
    responders term (event :: events) =
      (event.responder term).toFinset ∪ responders term events := by
  cases h : event.responder term with
  | none => simp [responders, h]
  | some peer =>
      simp only [responders, List.filterMap_cons_some h, List.toFinset_cons]
      rfl

namespace Node

section Office

variable {n begun : Node} {event : Event} {events : List Event}

theorem contact_subset (n : Node) (event : Event) :
    (n.contact event).toFinset ⊆ (event.responder n.term).toFinset := by
  cases event with
  | appendEntriesResponse response =>
      simp only [contact, Event.responder]
      split
      next h => rw [if_pos h.2.1]
      · simp
  | _ => simp [contact]

theorem contact_answers (hleader : n.role = .leader) (h : n.Answers event) :
    n.contact event = event.responder n.term := by
  cases event with
  | appendEntriesResponse response =>
      by_cases hterm : response.term = n.term
      · simp only [contact, Event.responder, hleader, hterm, h hterm, not_false_eq_true, and_self]
      · simp only [contact, Event.responder, hterm, false_and, and_false]
  | installSnapshotResponse response => exact (if_neg h).symm
  | _ => rfl

theorem step_inOffice (hleader : n.role = .leader) (hcheck : event ≠ .checkQuorumTimeout)
    (hstays : (n.step event).1.role = .leader) :
    (n.step event).1.peers = n.peers ∧ (n.step event).1.term = n.term ∧
      (n.step event).1.activePeers = n.activePeers ∪ (n.contact event).toFinset := by
  have hshifts := n.step_shifts event
  have hrole : (n.step event).1.standing.role = .leader := hstays
  suffices h : (n.step event).1.standing.peers = n.peers ∧
      (n.step event).1.standing.term = n.term ∧
      (n.step event).1.standing.activePeers = n.activePeers ∪ (n.contact event).toFinset from h
  revert hshifts hrole
  generalize (n.step event).1.standing = standing
  intro hshifts hrole
  cases hshifts with
  | stays quiet unchecked waiting ignored => simp [standing, quiet]
  | hears heard => simp [standing, heard]
  | isolated checked | sustained checked => exact absurd checked hcheck
  | probes expired idle | campaignsAlone expired idle => exact absurd hleader idle
  | wins granted campaigned => simp [hleader] at campaigned
  | recognizes | stepsDown | campaigns => simp at hrole

theorem InOffice.leads (h : n.InOffice events) : n.role = .leader := by
  cases events with
  | nil => exact h
  | cons => exact h.1

theorem steps_inOffice (h : n.InOffice events) :
    (n.steps events).role = .leader ∧ (n.steps events).peers = n.peers ∧
      (n.steps events).activePeers = n.activePeers ∪ n.contacts events := by
  induction events generalizing n with
  | nil => exact ⟨h, rfl, by simp [steps, contacts]⟩
  | cons event events ih =>
      obtain ⟨hleader, hcheck, hrest⟩ := h
      obtain ⟨hrole, hpeers, hactive⟩ := ih hrest
      obtain ⟨hpeers', -, hactive'⟩ := step_inOffice hleader hcheck hrest.leads
      refine ⟨hrole, hpeers.trans hpeers', ?_⟩
      simp only [steps, contacts]
      rw [hactive, hactive', Finset.union_assoc]

theorem InOffice.contacts_subset (h : n.InOffice events) :
    n.contacts events ⊆ responders n.term events := by
  induction events generalizing n with
  | nil => simp [contacts]
  | cons event events ih =>
      obtain ⟨hleader, hcheck, hrest⟩ := h
      obtain ⟨-, hterm, -⟩ := step_inOffice hleader hcheck hrest.leads
      rw [contacts, responders_cons]
      exact Finset.union_subset_union (n.contact_subset event) (hterm ▸ ih hrest)

theorem InOffice.contacts_eq (h : n.InOffice events) (hanswer : n.AllAnswer events) :
    n.contacts events = responders n.term events := by
  induction events generalizing n with
  | nil => rfl
  | cons event events ih =>
      obtain ⟨hleader, hcheck, hrest⟩ := h
      obtain ⟨-, hterm, -⟩ := step_inOffice hleader hcheck hrest.leads
      rw [contacts, responders_cons, contact_answers hleader hanswer.1, ih hrest hanswer.2, hterm]

theorem Begins.activePeers (h : n.Begins event begun) : begun.activePeers = ∅ := by
  obtain ⟨rfl, hleads, hchecked⟩ := h
  have hshifts := n.step_shifts event
  have hrole : (n.step event).1.standing.role = .leader := hleads
  suffices h : (n.step event).1.standing.activePeers = ∅ from h
  revert hshifts hrole
  generalize (n.step event).1.standing = standing
  intro hshifts hrole
  cases hshifts with
  | stays quiet unchecked waiting ignored => exact absurd hrole (unchecked (hchecked hrole))
  | hears heard =>
      rw [hchecked hrole] at heard
      simp [contact] at heard
  | sustained | wins => rfl
  | recognizes | stepsDown | isolated | probes | campaignsAlone | campaigns => simp at hrole

theorem checkQuorum_demotes (hleader : n.role = .leader) :
    (n.step .checkQuorumTimeout).1.role ≠ .leader ↔ n.activePeers.card + 1 < n.quorum := by
  simp only [step, checkQuorum, hleader, ne_eq, not_true_eq_false, if_false]
  split
  next h => simp [becomeFollower, h]
  next h => simp [h]

end Office

end Node

end QuorumKV.Raft

namespace QuorumKV.Cluster

open Raft QuorumKV.Runtime

/--
A heartbeat round sends a Leader's peer one replication request, except to a
peer that waits for a Snapshot while one is held to be in flight to it; and
that peer stays in this state.
-/
theorem heartbeat_reaches_iff {n : Node} {peer : NodeID} (hleader : n.role = .leader)
    (hpeer : peer ∈ n.peers) :
    ((n.step .heartbeatTimeout).2.countP (Action.requests peer) = 1 ↔ ¬ n.Stalled peer) ∧
      (n.Stalled peer →
        (n.step .heartbeatTimeout).2.countP (Action.requests peer) = 0 ∧
          (n.step .heartbeatTimeout).1.Stalled peer) := by
  refine ⟨⟨?_, Node.heartbeatRound_reaches hleader hpeer⟩, ?_⟩
  · intro hone hstalled
    have hnone := (Node.heartbeatRound_stalled hleader hstalled).2
    exact absurd (hone.symm.trans hnone) (by simp)
  · intro hstalled
    exact (Node.heartbeatRound_stalled hleader hstalled).symm

theorem heartbeat_reaches_elected : ∃ c p, Run threeNodes genuine {} c ∧
    (c.servers nodeA).process = some p ∧ ¬ p.core.Stalled nodeC ∧
    (p.core.step .heartbeatTimeout).2.countP (Action.requests nodeC) = 1 := by
  obtain ⟨c, hrun, p, hp, hleader, hpeer, hstalled⟩ : ∃ c, Run threeNodes genuine {} c ∧
      ∃ p ∈ (c.servers nodeA).process, p.core.role = .leader ∧ nodeC ∈ p.core.peers ∧
        ¬ p.core.Stalled nodeC :=
    Run.exists_of_follow electing (by decide +kernel)
  exact ⟨c, p, hrun, hp, hstalled, (heartbeat_reaches_iff hleader hpeer).1.mpr hstalled⟩

/--
The Snapshot to node C is lost.  However many heartbeats follow, none of them
sends node C a request.
-/
theorem heartbeat_starves : ∃ c p, Run threeNodes genuine {} c ∧
    (c.servers nodeA).process = some p ∧ p.core.role = .leader ∧ nodeC ∈ p.core.peers ∧
    ∀ rounds, ((p.core.heartbeats rounds).step .heartbeatTimeout).2.countP
      (Action.requests nodeC) = 0 := by
  obtain ⟨c, hrun, p, hp, hleader, hpeer, hstalled⟩ : ∃ c, Run threeNodes genuine {} c ∧
      ∃ p ∈ (c.servers nodeA).process, p.core.role = .leader ∧ nodeC ∈ p.core.peers ∧
        p.core.Stalled nodeC :=
    Run.exists_of_follow lagging (by decide +kernel)
  refine ⟨c, p, hrun, hp, hleader, hpeer, fun rounds => ?_⟩
  obtain ⟨hleads, hstays⟩ := Node.heartbeats_stalled hleader hstalled rounds
  exact (Node.heartbeatRound_stalled hleads hstays).2

/--
A Leader that checks its quorum steps down when the peers it heard from since
its election, or since it checked the last time, do not make a quorum with it.
It hears from no one who did not respond in its term; and it hears from all who
did, when each response answers the append in flight.
-/
theorem checkQuorum_demotes_iff {n begun : Node} {event : Event} {events : List Event}
    (hbegins : n.Begins event begun) (hoffice : begun.InOffice events) :
    (((begun.steps events).step .checkQuorumTimeout).1.role ≠ .leader ↔
      (begun.contacts events).card + 1 < begun.quorum) ∧
    begun.contacts events ⊆ responders begun.term events ∧
    (begun.AllAnswer events →
      (((begun.steps events).step .checkQuorumTimeout).1.role ≠ .leader ↔
        (responders begun.term events).card + 1 < begun.quorum)) := by
  obtain ⟨hleads, hpeers, hactive⟩ := Node.steps_inOffice hoffice
  rw [hbegins.activePeers, Finset.empty_union] at hactive
  have hquorum : (begun.steps events).quorum = begun.quorum := by simp only [Node.quorum, hpeers]
  have hdemotes := Node.checkQuorum_demotes hleads
  rw [hactive, hquorum] at hdemotes
  refine ⟨hdemotes, hoffice.contacts_subset, fun hanswer => ?_⟩
  rw [hdemotes, hoffice.contacts_eq hanswer]

def campaigning : Node :=
  ({ id := nodeA, peers := [nodeB, nodeC] } : Node).steps
    [.electionTimeout, .preVoteResponse ⟨nodeB, 1, 0, true⟩, .hardStatePersisted 1]

def refused : Event := .appendEntriesResponse ⟨nodeC, 1, 0, false, 0, 0, 1, 0⟩

theorem checkQuorum_demotes_answered : ∃ begun : Node,
    campaigning.Begins (.voteResponse ⟨nodeB, 1, true⟩) begun ∧ begun.AllAnswer [refused] ∧
    (responders begun.term [refused]).card = 1 ∧ begun.quorum = 2 ∧
    ((begun.steps [refused]).step .checkQuorumTimeout).1.role = .leader := by
  have hbegins : campaigning.Begins (.voteResponse ⟨nodeB, 1, true⟩)
      (campaigning.step (.voteResponse ⟨nodeB, 1, true⟩)).1 := ⟨rfl, by decide, by decide⟩
  have hoffice : (campaigning.step (.voteResponse ⟨nodeB, 1, true⟩)).1.InOffice [refused] :=
    ⟨by decide, by decide, show Node.role _ = _ by decide⟩
  have hanswer : (campaigning.step (.voteResponse ⟨nodeB, 1, true⟩)).1.AllAnswer [refused] :=
    ⟨fun _ => by decide, trivial⟩
  refine ⟨_, hbegins, hanswer, by decide, by decide, ?_⟩
  by_contra hdemoted
  have hfew := ((checkQuorum_demotes_iff hbegins hoffice).2.2 hanswer).mp hdemoted
  exact absurd hfew (by decide)

/--
Node C answers the Leader with the receipt of its Snapshot.  The Leader does not
count it and steps down.
-/
theorem checkQuorum_demotes_streaming : ∃ c c₁ c₂ c₃ c₄ p₁ p₃ p₄ response,
    Run threeNodes genuine {} c ∧
    c.step threeNodes (.turn (.checkQuorumTimeout nodeA)) = some c₁ ∧
    c₁.step threeNodes (deliver 21) = some c₂ ∧
    c₂.network[23]? = some ⟨nodeA, .installSnapshotResponse response⟩ ∧
    c₂.step threeNodes (deliver 23) = some c₃ ∧
    c₃.step threeNodes (.turn (.checkQuorumTimeout nodeA)) = some c₄ ∧
    (c₁.servers nodeA).process = some p₁ ∧ (c₃.servers nodeA).process = some p₃ ∧
    (c₄.servers nodeA).process = some p₄ ∧ p₁.core.role = .leader ∧ p₃.core.role = .leader ∧
    response.term = p₃.core.term ∧ p₃.core.quorum = 2 ∧ p₄.core.role = .follower := by
  obtain ⟨c, hrun, c₁, hfirst, c₂, hinstalled, c₃, hanswered, c₄, hsecond, p₁, hp₁, p₃, hp₃, p₄,
      hp₄, htest⟩ : ∃ c, Run threeNodes genuine {} c ∧
        ∃ c₁ ∈ c.step threeNodes (.turn (.checkQuorumTimeout nodeA)),
        ∃ c₂ ∈ c₁.step threeNodes (deliver 21), ∃ c₃ ∈ c₂.step threeNodes (deliver 23),
        ∃ c₄ ∈ c₃.step threeNodes (.turn (.checkQuorumTimeout nodeA)),
        ∃ p₁ ∈ (c₁.servers nodeA).process, ∃ p₃ ∈ (c₃.servers nodeA).process,
        ∃ p₄ ∈ (c₄.servers nodeA).process, decide (c₂.network[23]? =
            some (Packet.mk nodeA (.installSnapshotResponse ⟨nodeC, 1, 11, 2, true, 64, true⟩)) ∧
          p₁.core.role = .leader ∧ p₃.core.role = .leader ∧ 1 = p₃.core.term ∧
          p₃.core.quorum = 2 ∧ p₄.core.role = .follower) = true :=
    Run.exists_of_follow lagging (by decide +kernel)
  obtain ⟨hpacket, hleads₁, hleads₃, hterm, hquorum, hfollower⟩ := of_decide_eq_true htest
  exact ⟨c, c₁, c₂, c₃, c₄, p₁, p₃, p₄, _, hrun, hfirst, hinstalled, hpacket, hanswered, hsecond,
    hp₁, hp₃, hp₄, hleads₁, hleads₃, hterm, hquorum, hfollower⟩

end QuorumKV.Cluster
