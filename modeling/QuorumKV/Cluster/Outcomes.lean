import QuorumKV.Cluster.Incarnation
import QuorumKV.Session.Outcome

/-!
# What a run leaves behind

The effect behind every success a client is told: one position of the committed
log, the same for every node that answers and in every later state.  Below it, what
a term leaves on the network and on the disks: one log, only ever appended to, and
at most one vote of each node.
-/

namespace QuorumKV.Cluster

open Raft QuorumKV.Runtime Session Foundation

/-! ## A failover -/

/--
Node B applies the write that node A has acknowledged, leads in term 2 with node C's vote
and answers the client again.  Node A, which leads in term 1 still, appends a mutation, and
node C restarts.
-/
def failover : List Command :=
  [deliver 15, .turn (.electionTimeout nodeB), deliver 18, deliver 19, deliver 21, deliver 22,
    .turn (.propose nodeB 3 (.set ⟨3, sessionNumbered 7, 1, [107], [1]⟩)),
    .turn (.propose nodeA 4 (.set ⟨4, sessionNumbered 7, 2, [107], [2]⟩)), .crash nodeC,
    .start nodeC]

def acknowledges (node : NodeID) (c : Cluster) : Bool :=
  (answersAmong c.trace).any fun shown => shown.1 = node ∧
    shown.2.1.request = .mutation (sessionNumbered 7) 1 ∧ shown.2.2.rejected = false ∧
      shown.2.2.failure = .succeeded

theorem of_acknowledges {node : NodeID} {c : Cluster} (h : acknowledges node c = true) :
    ∃ waiter result, .answered node waiter result ∈ c.trace ∧
      waiter.request = .mutation (sessionNumbered 7) 1 ∧ Succeeds result := by
  simp only [acknowledges, List.any_eq_true, decide_eq_true_eq] at h
  obtain ⟨⟨node', waiter, result⟩, hmem, rfl, hrequest, hsucceeds⟩ := h
  exact ⟨waiter, result, mem_answersAmong hmem, hrequest, hsucceeds⟩

def ledUpTo (server : Server) : Option Nat :=
  server.process.bind fun p =>
    if p.core.role = .leader ∧ p.core.term = 1 then some p.core.lastLogIndex else none

theorem of_ledUpTo {server : Server} {index : Nat} (h : ledUpTo server = some index) :
    ∃ p, server.process = some p ∧ p.core.role = .leader ∧ p.core.term = 1 ∧
      p.core.lastLogIndex = index := by
  obtain ⟨p, hp, hled⟩ := Option.bind_eq_some_iff.mp h
  split at hled
  next hleads => exact ⟨p, hp, hleads.1, hleads.2, Option.some.inj hled⟩
  · simp at hled

/-- What the run with this failover shows, at its first and its last state. -/
def FailsOver (c c' : Cluster) : Prop :=
  acknowledges nodeA c = true ∧ acknowledges nodeB c' = true ∧
    ledUpTo (c.servers nodeA) = some 3 ∧ ledUpTo (c'.servers nodeA) = some 4 ∧
    ⟨nodeB, .voteResponse ⟨nodeC, 2, true⟩⟩ ∈ c'.network ∧
    (c'.servers nodeC).process.isSome ∧ (c'.servers nodeC).disk.hardState.term = 2

instance (c c' : Cluster) : Decidable (FailsOver c c') :=
  inferInstanceAs (Decidable (_ ∧ _ ∧ _ ∧ _ ∧ _ ∧ _ ∧ _))

theorem failover_run : ∃ c c', Run threeNodes genuine {} c ∧ Run threeNodes genuine c c' ∧
    FailsOver c c' := by
  obtain ⟨c, hrun, c', hfollow, hfound⟩ : ∃ c, Run threeNodes genuine {} c ∧
      ∃ c' ∈ follow threeNodes genuine c failover, FailsOver c c' :=
    Run.exists_of_follow (writing ++ [deliver 14]) (by decide +kernel)
  exact ⟨c, c', hrun, .of_follow hfollow, hfound⟩

/-! ## Successes -/

section Successes

variable {config : Config} {log : List LogEntry} {count : Nat} {session : SessionID}
  {sequence : UInt64} {result : ProposalResult} {c c' : Cluster}

/-- A success is the result of a mutation that took effect in the log. -/
theorem Answers.effectOf (h : Answers config log count (.mutation session sequence) result)
    (hcount : count ≤ log.length) (hsucceeds : Succeeds result) :
    ∃ position, EffectOf config.activeSessionLimit log session sequence position result := by
  rcases h with ⟨position, entry, -, hentry, ⟨hmutation, rfl, rfl⟩, rfl⟩ | ⟨_, _, hasked, heval⟩
  · exact effectOf_apply hentry hmutation hsucceeds.2
  · cases hasked
    exact effectOf_evaluateMutation hcount heval hsucceeds.2

def Told (config : Config) (log : List LogEntry) (shown : List Observation) : Prop :=
  ∀ node waiter result session sequence, .answered node waiter result ∈ shown →
    waiter.request = .mutation session sequence → Succeeds result →
    node ∈ config.members ∧
      ∃ position, EffectOf config.activeSessionLimit log session sequence position result

theorem Run.told {σ : Ideal} {ρ : Rounds} (h : Run config genuine c c')
    (hexplains : Explains config True False σ ρ c) (htold : Told config σ.chosen c.trace) :
    ∃ σ' ρ', Explains config True False σ' ρ' c' ∧ σ.chosen <+: σ'.chosen ∧
      Told config σ'.chosen c'.trace := by
  induction h with
  | refl => exact ⟨σ, ρ, hexplains, List.prefix_rfl, htold⟩
  | next before permitted stepped ih =>
      obtain ⟨σ₁, ρ₁, hexplains₁, hfront₁, htold₁⟩ := ih
      obtain ⟨σ₂, ρ₂, hcontinues⟩ := hexplains₁.step (meets_genuine permitted) stepped
      have hfront₂ := hcontinues.history.chosen_le
      refine ⟨σ₂, ρ₂, hcontinues.explains, hfront₁.trans hfront₂, ?_⟩
      intro node waiter result session sequence hanswer hrequest hsucceeds
      obtain ⟨shown, hshown⟩ := step_trace stepped
      rw [← hshown, List.mem_append] at hanswer
      rcases hanswer with hearlier | hnew
      · obtain ⟨hmember, position, heffect⟩ := htold₁ _ _ _ _ _ hearlier hrequest hsucceeds
        exact ⟨hmember, position, heffect.mono hfront₂⟩
      · -- The node that answers has applied no more than is chosen.
        obtain ⟨p, hp, hanswers⟩ := hcontinues.answers trivial node waiter result
          (by rwa [← hshown, List.drop_left]) hsucceeds.1
        have hruns := hcontinues.explains.servers node
        have hserves := hruns.serves p hp
        have happlied := (hserves.rest.applied_le.trans hserves.rest.commit_eq.le).trans
          (hruns.stored.commit_le_chosen hcontinues.explains.valid.agreed trivial)
        exact ⟨hserves.member, (hrequest ▸ hanswers).effectOf happlied hsucceeds⟩

theorem Run.told_from_start (h : Run config genuine {} c) :
    ∃ σ ρ, Explains config True False σ ρ c ∧ Told config σ.chosen c.trace := by
  obtain ⟨σ, ρ, hexplains, -, htold⟩ := h.told explains_initial (by simp [Told])
  exact ⟨σ, ρ, hexplains, htold⟩

/--
A mutation told to have succeeded took effect at one position of the committed log,
and whoever is told so again, by any node and at any time, is told the same result.
-/
theorem exactly_once (config : Config) (c : Cluster) (h : Run config genuine {} c)
    (node : NodeID) (waiter : Waiter) (result : ProposalResult) (session : SessionID)
    (sequence : UInt64) (hanswer : .answered node waiter result ∈ c.trace)
    (hrequest : waiter.request = .mutation session sequence) (hsucceeds : Succeeds result) :
    ∃ log position, Decides config c log ∧
      EffectOf config.activeSessionLimit log session sequence position result ∧
      (∀ other result', EffectOf config.activeSessionLimit log session sequence other result' →
        other = position) ∧
      ∀ node' waiter' result', .answered node' waiter' result' ∈ c.trace →
        waiter'.request = .mutation session sequence → Succeeds result' → result' = result := by
  obtain ⟨σ, ρ, hexplains, htold⟩ := h.told_from_start
  obtain ⟨-, position, heffect⟩ := htold _ _ _ _ _ hanswer hrequest hsucceeds
  refine ⟨σ.chosen, position, hexplains.decides, heffect, fun other result' hother =>
    (hother.unique heffect).1, ?_⟩
  intro node' waiter' result' hanswer' hrequest' hsucceeds'
  obtain ⟨-, position', heffect'⟩ := htold _ _ _ _ _ hanswer' hrequest' hsucceeds'
  exact (heffect'.unique heffect).2

theorem exactly_once_retried : ∃ c log position waiter waiter' result,
    Run threeNodes genuine {} c ∧ Decides threeNodes c log ∧
    EffectOf threeNodes.activeSessionLimit log (sessionNumbered 7) 1 position result ∧
    .answered nodeA waiter result ∈ c.trace ∧ .answered nodeB waiter' result ∈ c.trace := by
  obtain ⟨c, c', hrun, hrun', hfirst, hsecond, -⟩ := failover_run
  obtain ⟨waiter, result, hanswer, hrequest, hsucceeds⟩ := of_acknowledges hfirst
  obtain ⟨waiter', result', hanswer', hrequest', hsucceeds'⟩ := of_acknowledges hsecond
  have hanswer := hrun'.trace.subset hanswer
  obtain ⟨log, position, hdecides, heffect, -, hsame⟩ := exactly_once threeNodes c'
    (hrun.trans hrun') nodeA waiter result _ _ hanswer hrequest hsucceeds
  obtain rfl := hsame nodeB waiter' result' hanswer' hrequest' hsucceeds'
  exact ⟨c', log, position, waiter, waiter', _, hrun.trans hrun', hdecides, heffect, hanswer,
    hanswer'⟩

/-- What was told to have succeeded stays in effect and on a quorum's disks for good. -/
theorem acknowledged_forever (config : Config) (c c' : Cluster) (h : Run config genuine {} c)
    (h' : Run config genuine c c') (node : NodeID) (waiter : Waiter) (result : ProposalResult)
    (session : SessionID) (sequence : UInt64)
    (hanswer : .answered node waiter result ∈ c.trace)
    (hrequest : waiter.request = .mutation session sequence) (hsucceeds : Succeeds result) :
    ∃ log log' position entry, Decides config c log ∧ Decides config c' log' ∧ log <+: log' ∧
      log[position]? = some entry ∧ log'[position]? = some entry ∧
      EffectOf config.activeSessionLimit log session sequence position result ∧
      EffectOf config.activeSessionLimit log' session sequence position result ∧
      DurableAt config c' (position + 1) entry := by
  obtain ⟨σ, ρ, hexplains, htold⟩ := h.told_from_start
  obtain ⟨hmember, position, heffect⟩ := htold _ _ _ _ _ hanswer hrequest hsucceeds
  obtain ⟨σ', ρ', hexplains', hfront, -⟩ := h'.told hexplains htold
  obtain ⟨entry, hentry, -⟩ := id heffect
  have hentry' : σ'.chosen[position]? = some entry := by
    obtain ⟨more, hmore⟩ := id hfront
    rw [← hmore, List.getElem?_append_left (List.getElem?_eq_some_iff.mp hentry).1, hentry]
  exact ⟨σ.chosen, σ'.chosen, position, entry, hexplains.decides, hexplains'.decides, hfront, hentry,
    hentry', heffect, heffect.mono hfront, hexplains'.durableAt hmember hentry'⟩

theorem acknowledged_forever_failover : ∃ c c' waiter result log' position entry,
    Run threeNodes genuine {} c ∧ Run threeNodes genuine c c' ∧
    .answered nodeA waiter result ∈ c.trace ∧ Decides threeNodes c' log' ∧
    EffectOf threeNodes.activeSessionLimit log' (sessionNumbered 7) 1 position result ∧
    log'[position]? = some entry ∧ DurableAt threeNodes c' (position + 1) entry := by
  obtain ⟨c, c', hrun, hrun', hacknowledges, -⟩ := failover_run
  obtain ⟨waiter, result, hanswer, hrequest, hsucceeds⟩ := of_acknowledges hacknowledges
  obtain ⟨-, log', position, entry, -, hdecides, -, -, hentry, -, heffect, hdurable⟩ :=
    acknowledged_forever threeNodes c c' hrun hrun' nodeA waiter result _ _ hanswer hrequest
      hsucceeds
  exact ⟨c, c', waiter, result, log', position, entry, hrun, hrun', hanswer, hdecides, heffect,
    hentry, hdurable⟩

end Successes

/-! ## Terms -/

section Terms

/--
The log of a term: what its Leader holds, with all that it has ever sent.  Messages
stay in the network, so this includes the messages of a Leader that is gone.
-/
structure TermLog (c : Cluster) (term : Nat) (leader : NodeID) (log : List LogEntry) : Prop where
  held : ∀ id p, (c.servers id).process = some p → p.core.role = .leader → p.core.term = term →
    id = leader ∧ (viewOf p.core).Of log
  sent : ∀ dest request, ⟨dest, .appendEntries request⟩ ∈ c.network → request.term = term →
    request.sender = leader ∧ request.prevLogIndex + request.entries.length ≤ log.length ∧
      request.prevLogTerm = termAt LogEntry.term log request.prevLogIndex ∧
      request.entries = (log.drop request.prevLogIndex).take request.entries.length

theorem Explains.termLog {config : Config} {guarded prompt : Prop} {σ : Ideal} {ρ : Rounds}
    {c : Cluster} (h : Explains config guarded prompt σ ρ c) {term : Nat} {leader : NodeID}
    (hleader : ∀ id, σ.lead term = some id → id = leader) :
    TermLog c term leader (σ.llog term) where
  held id p hp hrole hterm := by
    subst hterm
    have hleads := ((h.servers id).serves p hp).leads hrole
    exact ⟨hleader id hleads.leads, hleads.holds ▸ h.shows (.inl ⟨p, hp, rfl⟩)⟩
  sent dest request hsent hterm := by
    subst hterm
    have htrue : TrueAppend guarded σ ρ dest request := h.network _ hsent
    exact ⟨hleader _ htrue.leads, htrue.inside, htrue.prevTerm, htrue.entries_eq⟩

/-- A term has one log, which its Leader only appends to. -/
theorem leaders_append_only (config : Config) (allowed : Cluster → Command → Prop)
    (c c' : Cluster) (h : Run config allowed {} c) (h' : Run config allowed c c') (term : Nat) :
    ∃ leader log log', TermLog c term leader log ∧ TermLog c' term leader log' ∧
      log <+: log' := by
  obtain ⟨σ, ρ, hexplains⟩ := h.explained fun c command _ => meets_nothing c command
  obtain ⟨σ', ρ', hexplains', hextends⟩ :=
    h'.explained_from (fun c command _ => meets_nothing c command) hexplains
  -- Both states have the Leader of the later one: a term's Leader is never replaced.
  refine ⟨(σ'.lead term).getD [], σ.llog term, σ'.llog term, hexplains.termLog ?_,
    hexplains'.termLog ?_, hextends.llog_le term⟩
  · intro id hlead
    simp [hextends.lead_eq term id hlead]
  · intro id hlead
    simp [hlead]

theorem leaders_append_only_deposed : ∃ c c' p p' log log', Run threeNodes genuine {} c ∧
    Run threeNodes genuine c c' ∧ (c.servers nodeA).process = some p ∧
    (c'.servers nodeA).process = some p' ∧ p.core.lastLogIndex = 3 ∧ p'.core.lastLogIndex = 4 ∧
    (viewOf p.core).Of log ∧ (viewOf p'.core).Of log' ∧ log <+: log' := by
  obtain ⟨c, c', hrun, hrun', -, -, hled, hled', -⟩ := failover_run
  obtain ⟨p, hp, hrole, hterm, hlast⟩ := of_ledUpTo hled
  obtain ⟨p', hp', hrole', hterm', hlast'⟩ := of_ledUpTo hled'
  obtain ⟨leader, log, log', hlog, hlog', hfront⟩ :=
    leaders_append_only threeNodes genuine c c' hrun hrun' 1
  exact ⟨c, c', p, p', log, log', hrun, hrun', hp, hp', hlast, hlast',
    (hlog.held nodeA p hp hrole hterm).2, (hlog'.held nodeA p' hp' hrole' hterm').2, hfront⟩

/-- A vote that was sent is the only one of its term, and the sender's disk still has it. -/
theorem votes_recorded (config : Config) (allowed : Cluster → Command → Prop) (c : Cluster)
    (h : Run config allowed {} c) (dest : NodeID) (vote : VoteResponse)
    (hsent : ⟨dest, .voteResponse vote⟩ ∈ c.network) (hgranted : vote.granted = true) :
    vote.term ≤ (c.servers vote.sender).disk.hardState.term ∧
      ((c.servers vote.sender).disk.hardState.term = vote.term →
        (c.servers vote.sender).disk.hardState.votedFor = dest) ∧
      ∀ dest' vote', ⟨dest', .voteResponse vote'⟩ ∈ c.network → vote'.granted = true →
        vote'.sender = vote.sender → vote'.term = vote.term → dest' = dest := by
  obtain ⟨σ, ρ, hexplains⟩ := h.explained fun c command _ => meets_nothing c command
  have hvoted : ∀ {dest vote}, ⟨dest, .voteResponse vote⟩ ∈ c.network → vote.granted = true →
      σ.vote vote.sender vote.term = some dest := by
    intro dest vote hsent hgranted
    have htrue : TrueVoteResponse config σ dest vote := hexplains.network _ hsent
    exact htrue.granted hgranted
  have hvote := hvoted hsent hgranted
  have hstored := (hexplains.servers vote.sender).stored
  refine ⟨?_, ?_, ?_⟩
  · rw [hstored.term_eq]
    exact (hexplains.valid.inv.vote_le _ _ _ hvote).2
  · intro hterm
    rw [hstored.vote_eq, ← hstored.term_eq, hterm, hvote, Option.getD_some]
  · intro dest' vote' hsent' hgranted' hsender hterm
    have hvote' := hvoted hsent' hgranted'
    rw [hsender, hterm, hvote] at hvote'
    exact (Option.some.inj hvote').symm

/-- Node C, started again, still has the vote that elected node B. -/
theorem votes_recorded_restarted : ∃ c, Run threeNodes genuine {} c ∧
    ⟨nodeB, .voteResponse ⟨nodeC, 2, true⟩⟩ ∈ c.network ∧ (c.servers nodeC).process.isSome ∧
    (c.servers nodeC).disk.hardState.votedFor = nodeB := by
  obtain ⟨c, c', hrun, hrun', -, -, -, -, hsent, hstarted, hterm⟩ := failover_run
  obtain ⟨-, hvote, -⟩ :=
    votes_recorded threeNodes genuine c' (hrun.trans hrun') nodeB _ hsent rfl
  exact ⟨c', hrun.trans hrun', hsent, hstarted, hvote hterm⟩

end Terms

end QuorumKV.Cluster
