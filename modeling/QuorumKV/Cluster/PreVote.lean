import QuorumKV.Raft.Standing
import QuorumKV.Cluster.Incarnation

/-!
# Pre-votes against a Leader

A Follower that heard from a Leader refuses pre-votes until its election timer
fires.  A Leader hears from no Leader, so it treats a pre-vote request against
itself as any idle node does.
-/

namespace QuorumKV.Raft.Node

section Contact

variable {n : Node} {event : Event} {standing : Standing}

def Polite (n : Node) : Prop := n.recentLeaderContact = true → n.role = .follower

theorem Shifts.polite (h : n.Shifts event standing) (hpolite : n.Polite)
    (hcontact : standing.recentLeaderContact = true) : standing.role = .follower := by
  cases h with
  | stays | hears | sustained => exact hpolite hcontact
  | recognizes | stepsDown | isolated => rfl
  | probes | campaignsAlone => simp at hcontact
  | campaigns granted probed => simp [hpolite hcontact] at probed
  | wins granted campaigned => simp [hpolite hcontact] at campaigned

def Heard (T : Nat) (standing : Standing) : Prop :=
  T < standing.term ∨ (standing.term = T ∧ standing.recentLeaderContact = true)

theorem Shifts.hear {leader : NodeID} {T : Nat} (h : n.Shifts event standing)
    (hled : event.leadership = some (leader, T)) : Heard T standing := by
  cases h with
  | stays quiet unchecked waiting ignored => exact .inl (ignored leader T hled)
  | recognizes led newer =>
      obtain ⟨-, rfl⟩ := Prod.mk.inj (Option.some.inj (led.symm.trans hled))
      exact .inr ⟨rfl, rfl⟩
  | stepsDown newer heard => simp [heard] at hled
  | hears heard =>
      cases event with
      | appendEntriesResponse response => simp [Event.leadership] at hled
      | _ => simp [contact] at heard
  | isolated h | sustained h | probes h | campaignsAlone h | campaigns h | wins h =>
      subst h
      simp [Event.leadership] at hled

theorem Shifts.heard {T : Nat} (h : n.Shifts event standing) (hpolite : n.Polite)
    (hexpired : event ≠ .electionTimeout) (hheard : Heard T n.standing) : Heard T standing := by
  cases h with
  | stays | hears | sustained | wins => exact hheard
  | recognizes led newer =>
      have hle : T ≤ n.term := hheard.elim Nat.le_of_lt fun h => h.1.ge
      rcases (hle.trans newer).lt_or_eq with hlt | heq
      · exact .inl hlt
      · exact .inr ⟨heq.symm, rfl⟩
  | stepsDown newer heard =>
      have hle : T ≤ n.term := hheard.elim Nat.le_of_lt fun h => h.1.ge
      exact .inl (hle.trans_lt newer)
  | isolated checked leads few =>
      rcases hheard with hlt | ⟨-, hcontact⟩
      · exact .inl hlt
      · simp [hpolite hcontact] at leads
  | probes expired | campaignsAlone expired => exact absurd expired hexpired
  | campaigns granted probed =>
      have hle : T ≤ n.term := hheard.elim Nat.le_of_lt fun h => h.1.ge
      exact .inl (Nat.lt_succ_of_le hle)

def answersPreVote (n : Node) (request : PreVoteRequest) (granted : Bool) : Prop :=
  (n.step (.preVoteRequest request)).2 =
    [.sendPreVoteResponse request.sender ⟨n.id, request.term, n.term, granted⟩]

theorem answersPreVote_iff (n : Node) (request : PreVoteRequest) :
    n.answersPreVote request false ↔
      n.recentLeaderContact = true ∨ request.term ≤ n.term ∨
        n.candidateLogIsUpToDate request.lastLogTerm request.lastLogIndex = false := by
  simp only [answersPreVote, step, handlePreVoteRequest, List.cons.injEq, and_true,
    Action.sendPreVoteResponse.injEq, PreVoteResponse.mk.injEq, true_and]
  simp only [Bool.and_eq_false_iff, decide_eq_false_iff_not, Bool.not_eq_false', ge_iff_le,
    Nat.not_le, Nat.lt_succ_iff]
  tauto

end Contact

end QuorumKV.Raft.Node

namespace QuorumKV.Cluster

open Raft QuorumKV.Runtime

def leadership : Message → Option (NodeID × Nat)
  | .appendEntries request => some (request.sender, request.term)
  | .installSnapshot chunk => some (chunk.sender, chunk.term)
  | _ => none

section Commands

variable {config : Config} {c c' : Cluster} {id : NodeID} {p p' : Process} {command : Command}

theorem serve_standing {server : Server} {since : Nat} {input : Input} {turn : Turn}
    (h : server.serve config id since input = some turn) (hp' : turn.server.process = some p') :
    ∃ p, server.process = some p ∧
      ((∃ answered observed, prepare config id since p input = some (.answered answered observed) ∧
          p'.core = p.core) ∨
        ∃ stepped saved event waiter,
          prepare config id since p input = some (.stepped stepped saved event waiter) ∧
          p'.core.standing = (p.core.step event).1.standing) := by
  obtain ⟨p, hprocess, hserved⟩ := Server.serve_served h
  refine ⟨p, hprocess, ?_⟩
  cases hserved with
  | answered prepared =>
      obtain rfl := Option.some.inj hp'
      exact .inl ⟨_, _, prepared, (prepare_answered prepared).core_eq⟩
  | ended => simp at hp'
  | finished prepared stepped carried =>
      obtain rfl := Option.some.inj hp'
      refine .inr ⟨_, _, _, _, prepared, ?_⟩
      rw [afterActions_core, carryOutAll_core carried, ← (prepare_stepped prepared).core_eq]
      exact step_standing stepped

theorem start_standing {server : Server} {turn : Turn}
    (h : server.start config id = some turn) (hp' : turn.server.process = some p') :
    p'.core.recentLeaderContact = false := by
  obtain ⟨core, found, _, _, progress, hopen, -, hstep, -, rfl⟩ := Server.start_ok h
  obtain rfl := Option.some.inj hp'
  have hcore : core.recentLeaderContact = false := by
    unfold openRaftRuntime at hopen
    split at hopen
    · simp at hopen
    · obtain ⟨rfl, -⟩ := Prod.mk.inj (Option.some.inj hopen)
      rfl
  rw [← hcore]
  exact congrArg Standing.recentLeaderContact
    ((step_standing hstep).trans (Node.standing_applyThrough _))

theorem step_process (hstep : c.step config command = some c')
    (hp' : (c'.servers id).process = some p') :
    (∃ p, (c.servers id).process = some p ∧
      (p'.core = p.core ∨ ∃ index term, p'.core = p.core.compactLog index term)) ∨
    (∃ selection input turn, command = .turn selection ∧ c.select selection = some (id, input) ∧
      (c.servers id).serve config id c.trace.length input = some turn ∧
      turn.server.process = some p') ∨
    (command = .start id ∧ ∃ turn, (c.servers id).start config id = some turn ∧
      turn.server.process = some p') := by
  have hothers : ∀ other server, other ≠ id →
      (Function.update c.servers other server id).process = some p' →
      ∃ p, (c.servers id).process = some p ∧
        (p'.core = p.core ∨ ∃ index term, p'.core = p.core.compactLog index term) := by
    intro other server hother hp
    rw [Function.update_of_ne (Ne.symm hother)] at hp
    exact ⟨p', hp, .inl rfl⟩
  cases step_does hstep with
  | @turn selection node input turn hselect hserve =>
      by_cases hnode : node = id
      · subst hnode
        exact .inr (.inl ⟨selection, input, turn, rfl, hselect, hserve,
          by simpa [Cluster.after] using hp'⟩)
      · exact .inl (hothers node _ hnode hp')
  | @crashDuring _ _ _ node _ _ hselect hcrash =>
      by_cases hnode : node = id
      · subst hnode
        simp [Cluster.after, (crashDuring_movers hcrash node).1] at hp'
      · exact .inl (hothers node _ hnode hp')
  | @start other turn hmember hstart =>
      by_cases hother : other = id
      · subst hother
        exact .inr (.inr ⟨rfl, turn, hstart, by simpa [Cluster.after] using hp'⟩)
      · exact .inl (hothers other _ hother hp')
  | @upkeep other _ _ hkept =>
      by_cases hother : other = id
      · subst hother
        exact .inl (hkept.core_eq (by simpa [Cluster.replace] using hp'))
      · exact .inl (hothers other _ hother hp')

/-- A process that was not started just now has its standing from one event at most. -/
theorem step_shifts (hstep : c.step config command = some c') (hrunning : command ≠ .start id)
    (hp' : (c'.servers id).process = some p') :
    ∃ p, (c.servers id).process = some p ∧
      (p'.core.standing = p.core.standing ∨
        ∃ selection input stepped saved event waiter, command = .turn selection ∧
          c.select selection = some (id, input) ∧
          prepare config id c.trace.length p input =
            some (.stepped stepped saved event waiter) ∧
          p.core.Shifts event p'.core.standing) := by
  rcases step_process hstep hp' with ⟨p, hp, hcore | ⟨index, term, hcore⟩⟩ |
    ⟨selection, input, turn, hcommand, hselect, hserve, hturn⟩ | ⟨hstart, -⟩
  · exact ⟨p, hp, .inl (by rw [hcore])⟩
  · exact ⟨p, hp, .inl (by rw [hcore, Node.standing_compactLog])⟩
  · obtain ⟨p, hp, ⟨answered, observed, -, hcore⟩ |
      ⟨stepped, saved, event, waiter, hprepare, hstanding⟩⟩ := serve_standing hserve hturn
    · exact ⟨p, hp, .inl (by rw [hcore])⟩
    · refine ⟨p, hp, .inr ⟨selection, input, stepped, saved, event, waiter, hcommand, hselect,
        hprepare, ?_⟩⟩
      rw [hstanding]
      exact p.core.step_shifts event
  · exact absurd hstart hrunning

theorem prepare_electionTimeout {since : Nat} {input : Input} {stepped : Process}
    {saved : List Snapshot.State} {waiter : Option Waiter}
    (h : prepare config id since p input = some (.stepped stepped saved .electionTimeout waiter)) :
    input = .electionTimeout := by
  generalize hevent : Event.electionTimeout = event at h
  cases prepare_stepped h with
  | electionTimeout => rfl
  | @propose client proposal => cases proposal <;> simp [Proposal.event] at hevent
  | @receive message _ _ _ _ prepared =>
      cases message <;> simp [Message.prepare, ← hevent] at prepared
  | _ => simp at hevent

theorem select_electionTimeout {selection : Selection}
    (h : c.select selection = some (id, .electionTimeout)) : selection = .electionTimeout id := by
  cases selection with
  | electionTimeout other =>
      cases h
      rfl
  | deliver position =>
      simp only [Cluster.select] at h
      split at h <;> simp at h
  | _ => simp [Cluster.select] at h

theorem prepare_leadership {since : Nat} {message : Message} {stepped : Process}
    {saved : List Snapshot.State} {event : Event} {waiter : Option Waiter}
    (h : prepare config id since p (.receive message) =
      some (.stepped stepped saved event waiter)) : event.leadership = leadership message := by
  cases message with
  | installSnapshot chunk =>
      simp only [prepare, Message.prepare, Option.some.injEq, Prepared.stepped.injEq] at h
      rw [← h.2.2.1]
      simp only [stageChunk, Event.leadership, leadership]
      repeat' split
      all_goals rfl
  | _ =>
      cases h
      rfl

end Commands

section Runs

variable {config : Config} {allowed : Cluster → Command → Prop} {c c' : Cluster} {id : NodeID}
  {T : Nat}

def Polite (c : Cluster) : Prop :=
  ∀ id p, (c.servers id).process = some p → p.core.Polite

theorem Polite.step (h : c.Polite) {command : Command} (hstep : c.step config command = some c') :
    c'.Polite := by
  intro id p' hp'
  by_cases hstart : command = .start id
  · rcases step_process hstep hp' with ⟨p, hp, hcore | ⟨index, term, hcore⟩⟩ |
      ⟨selection, input, turn, hcommand, -⟩ | ⟨-, turn, hstarted, hturn⟩
    · rw [hcore]
      exact h id p hp
    · intro hcontact
      have hstanding : p'.core.standing = p.core.standing := by
        rw [hcore, Node.standing_compactLog]
      have hrole := h id p hp
        ((congrArg Standing.recentLeaderContact hstanding).symm.trans hcontact)
      exact (congrArg Standing.role hstanding).trans hrole
    · simp [hstart] at hcommand
    · intro hcontact
      simp [start_standing hstarted hturn] at hcontact
  · obtain ⟨p, hp, hstanding | ⟨_, _, _, _, event, _, -, -, -, hshifts⟩⟩ :=
      step_shifts hstep hstart hp'
    · intro hcontact
      have hrole := h id p hp
        ((congrArg Standing.recentLeaderContact hstanding).symm.trans hcontact)
      exact (congrArg Standing.role hstanding).trans hrole
    · exact hshifts.polite (h id p hp)

theorem Run.polite (hrun : Run config allowed c c') (h : c.Polite) : c'.Polite := by
  induction hrun with
  | refl => exact h
  | next before permitted stepped ih => exact ih.step stepped

/-- The node is not started again and its election timer does not fire. -/
def undisturbed (id : NodeID) (_ : Cluster) (command : Command) : Prop :=
  command ≠ .start id ∧ command ≠ .turn (.electionTimeout id)

def Hears (c : Cluster) (id : NodeID) (T : Nat) : Prop :=
  ∀ p, (c.servers id).process = some p → Node.Heard T p.core.standing

theorem Hears.step (h : c.Hears id T) (hpolite : c.Polite) {command : Command}
    (hundisturbed : undisturbed id c command) (hstep : c.step config command = some c') :
    c'.Hears id T := by
  intro p' hp'
  obtain ⟨p, hp, hstanding | ⟨selection, input, _, _, event, _, rfl, hselect, hprepare,
    hshifts⟩⟩ := step_shifts hstep hundisturbed.1 hp'
  · rw [hstanding]
    exact h p hp
  · refine hshifts.heard (hpolite id p hp) ?_ (h p hp)
    rintro rfl
    obtain rfl := prepare_electionTimeout hprepare
    exact hundisturbed.2 (by rw [select_electionTimeout hselect])

theorem Run.hears (hrun : Run config (undisturbed id) c c') (hpolite : c.Polite)
    (h : c.Hears id T) : c'.Hears id T := by
  induction hrun with
  | refl => exact h
  | next before permitted stepped ih => exact ih.step (before.polite hpolite) permitted stepped

theorem hears_delivered {position : Nat} {message : Message} {leader : NodeID}
    (hpacket : c.network[position]? = some ⟨id, message⟩)
    (hled : leadership message = some (leader, T))
    (hstep : c.step config (.turn (.deliver position)) = some c') : c'.Hears id T := by
  intro p' hp'
  have hselect : c.select (.deliver position) = some (id, .receive message) := by
    simp [Cluster.select, hpacket]
  simp only [Cluster.step, hselect] at hstep
  obtain ⟨turn, hserve, rfl⟩ := Option.map_eq_some_iff.mp hstep
  have hturn : turn.server.process = some p' := by simpa [Cluster.after] using hp'
  obtain ⟨p, hp, ⟨answered, observed, hprepare, -⟩ |
    ⟨stepped, saved, event, waiter, hprepare, hstanding⟩⟩ := serve_standing hserve hturn
  · cases message <;> simp [prepare, Message.prepare] at hprepare
  · rw [hstanding]
    exact (p.core.step_shifts event).hear ((prepare_leadership hprepare).trans hled)

end Runs

/--
Once a Follower has heard from the Leader of its term it refuses every pre-vote
while it is not started again and its election timer does not fire.  The Leader
refuses exactly the pre-votes of its own or an older term and those of logs
behind its own.
-/
theorem preVotes_refused_iff {config : Config} {allowed : Cluster → Command → Prop}
    {c₀ c₁ c : Cluster} {leader follower : NodeID} {T position : Nat} {message : Message}
    {p q : Process} (hrun : Run config allowed {} c₀)
    (hpacket : c₀.network[position]? = some ⟨follower, message⟩)
    (hled : leadership message = some (leader, T))
    (hdelivered : c₀.step config (.turn (.deliver position)) = some c₁)
    (hsince : Run config (undisturbed follower) c₁ c)
    (hp : (c.servers leader).process = some p) (hleads : p.core.role = .leader)
    (hpterm : p.core.term = T) (hq : (c.servers follower).process = some q)
    (hqterm : q.core.term = T) (request : PreVoteRequest) :
    q.core.answersPreVote request false ∧
      (p.core.answersPreVote request false ↔ request.term ≤ T ∨
        p.core.candidateLogIsUpToDate request.lastLogTerm request.lastLogIndex = false) := by
  have hpolite : c₁.Polite :=
    Polite.step (hrun.polite fun id p hp => by simp at hp) hdelivered
  constructor
  · rw [Node.answersPreVote_iff]
    rcases hsince.hears hpolite (hears_delivered hpacket hled hdelivered) q hq with hnewer | hheard
    · exact absurd hqterm (Nat.ne_of_gt hnewer)
    · exact .inl hheard.2
  · have hcontact : ¬ p.core.recentLeaderContact = true := by
      intro hcontact
      simp [hsince.polite hpolite leader p hp hcontact] at hleads
    rw [Node.answersPreVote_iff, hpterm]
    simp [hcontact]

/-! ## A Leader cut off in one direction -/

def disturbs (id : NodeID) : Command → Bool
  | .start other => other == id
  | .turn (.electionTimeout other) => other == id
  | _ => false

theorem disturbs_iff {id : NodeID} {c : Cluster} {command : Command} :
    disturbs id command = false ↔ undisturbed id c command := by
  cases command with
  | turn selection => cases selection <;> simp [disturbs, undisturbed]
  | _ => simp [disturbs, undisturbed]

instance (id : NodeID) (c : Cluster) (command : Command) :
    Decidable (undisturbed id c command) :=
  decidable_of_iff _ disturbs_iff

instance (n : Node) (request : PreVoteRequest) (granted : Bool) :
    Decidable (n.answersPreVote request granted) :=
  inferInstanceAs (Decidable (_ = _))

/--
Node A leads in term one and node C holds its log.  Node B hears from node A;
then the election timer of node C fires.
-/
theorem contacted_reached : ∃ c₀ c₁ c p q message, Run threeNodes genuine {} c₀ ∧
    c₀.network[6]? = some ⟨nodeB, message⟩ ∧ leadership message = some (nodeA, 1) ∧
    c₀.step threeNodes (deliver 6) = some c₁ ∧ Run threeNodes (undisturbed nodeB) c₁ c ∧
    (c.servers nodeA).process = some p ∧ (c.servers nodeB).process = some q ∧
    p.core.role = .leader ∧ p.core.term = 1 ∧ q.core.term = 1 ∧
    c.network[12]? = some ⟨nodeA, .preVoteRequest ⟨nodeC, 2, 1, 1⟩⟩ ∧
    p.core.answersPreVote ⟨nodeC, 2, 1, 1⟩ true ∧
    ∃ c' p', Run threeNodes (undisturbed nodeB) c c' ∧ (c'.servers nodeA).process = some p' ∧
      p'.core.role = .follower ∧ p'.core.term = 2 := by
  obtain ⟨c₀, hrun, htest⟩ : ∃ c₀, Run threeNodes genuine {} c₀ ∧
      ((c₀.network[6]?).any fun packet : Packet =>
        decide (packet.dest = nodeB ∧ leadership packet.message = some (nodeA, 1)) &&
        (c₀.step threeNodes (deliver 6)).any fun c₁ =>
          (follow threeNodes (undisturbed nodeB) c₁ [.turn (.electionTimeout nodeC)]).any fun c =>
            (c.servers nodeA).process.any fun p => (c.servers nodeB).process.any fun q =>
              decide (p.core.role = .leader ∧ p.core.term = 1 ∧ q.core.term = 1 ∧
                c.network[12]? = some ⟨nodeA, .preVoteRequest ⟨nodeC, 2, 1, 1⟩⟩ ∧
                p.core.answersPreVote ⟨nodeC, 2, 1, 1⟩ true) &&
              (follow threeNodes (undisturbed nodeB) c
                [deliver 12, deliver 14, deliver 15]).any fun c' =>
                  (c'.servers nodeA).process.any fun p' =>
                    decide (p'.core.role = .follower ∧ p'.core.term = 2)) = true :=
    Run.exists_of_follow (electing ++ [deliver 7, deliver 8, deliver 9]) (by decide +kernel)
  simp only [Bool.and_eq_true, Option.any_eq_true, decide_eq_true_eq] at htest
  obtain ⟨⟨dest, message⟩, hpacket, ⟨rfl, hled⟩, c₁, hdelivered, c, hsince, p, hp, q, hq,
    ⟨hleads, hpterm, hqterm, hasked, hgranted⟩, c', hdeposes, p', hp', hrole, hterm⟩ := htest
  exact ⟨c₀, c₁, c, p, q, message, hrun, hpacket, hled, hdelivered, .of_follow hsince, hp, hq,
    hleads, hpterm, hqterm, hasked, hgranted, c', p', .of_follow hdeposes, hp', hrole, hterm⟩

theorem preVotes_refused_current : ∃ c p q, Run threeNodes (fun _ _ => True) {} c ∧
    (c.servers nodeA).process = some p ∧ (c.servers nodeB).process = some q ∧
    p.core.role = .leader ∧ p.core.answersPreVote ⟨nodeC, 1, 1, 1⟩ false ∧
    q.core.answersPreVote ⟨nodeC, 2, 1, 1⟩ false := by
  obtain ⟨c₀, c₁, c, p, q, message, hrun, hpacket, hled, hdelivered, hsince, hp, hq, hleads,
    hpterm, hqterm, -⟩ := contacted_reached
  have hrefused := preVotes_refused_iff hrun hpacket hled hdelivered hsince hp hleads hpterm hq
    hqterm
  refine ⟨c, p, q, ?_, hp, hq, hleads, (hrefused ⟨nodeC, 1, 1, 1⟩).2.mpr (.inl le_rfl),
    (hrefused ⟨nodeC, 2, 1, 1⟩).1⟩
  exact ((hrun.mono fun _ _ _ => trivial).next trivial hdelivered).trans
    (hsince.mono fun _ _ _ => trivial)

/-- The Leader grants node C's pre-vote, and node C deposes it. -/
theorem preVote_granted_by_leader : ∃ c₀ c₁ c c' p q p' message request,
    Run threeNodes genuine {} c₀ ∧ c₀.network[6]? = some ⟨nodeB, message⟩ ∧
    leadership message = some (nodeA, 1) ∧ c₀.step threeNodes (deliver 6) = some c₁ ∧
    Run threeNodes (undisturbed nodeB) c₁ c ∧ (c.servers nodeA).process = some p ∧
    p.core.role = .leader ∧ p.core.term = 1 ∧ (c.servers nodeB).process = some q ∧
    q.core.term = 1 ∧ c.network[12]? = some ⟨nodeA, .preVoteRequest request⟩ ∧
    request.sender = nodeC ∧ p.core.answersPreVote request true ∧
    Run threeNodes (undisturbed nodeB) c c' ∧ (c'.servers nodeA).process = some p' ∧
    p'.core.role = .follower ∧ p'.core.term = 2 := by
  obtain ⟨c₀, c₁, c, p, q, message, hrun, hpacket, hled, hdelivered, hsince, hp, hq, hleads,
    hpterm, hqterm, hasked, hgranted, c', p', hdeposes, hp', hrole, hterm⟩ := contacted_reached
  exact ⟨c₀, c₁, c, c', p, q, p', message, _, hrun, hpacket, hled, hdelivered, hsince, hp, hleads,
    hpterm, hq, hqterm, hasked, rfl, hgranted, hdeposes, hp', hrole, hterm⟩

end QuorumKV.Cluster
