import QuorumKV.Cluster.Safety

/-!
# What clients are told

An acknowledged mutation is committed, applied, and durable on a quorum; a
confirmed read sees all that was acknowledged before it; and, where mutations
are answered without a proposal only by nodes that are up to date, a refusal is
one that the committed log justifies.
-/

namespace QuorumKV.Cluster

open Raft QuorumKV.Runtime Session Foundation

def Includes (log : List LogEntry) (count : Nat) (shown : List Observation) : Prop :=
  ∀ node waiter result, .answered node waiter result ∈ shown → Succeeds result →
    ∃ position ≤ count, Carries log position waiter.request

def DurableAt (config : Config) (c : Cluster) (position : Nat) (entry : LogEntry) : Prop :=
  ∃ Q, config.Quorum Q ∧ ∀ f ∈ Q, ∃ saved, Saves config (c.servers f) saved ∧
    saved[position - 1]? = some entry

section Acknowledged

variable {config : Config} {prompt : Prop} {σ : Ideal} {ρ : Rounds} {c : Cluster}

theorem some_quorum {id : NodeID} (h : id ∈ config.members) :
    ∃ Q, config.Quorum Q := by
  refine ⟨config.members.toFinset, Finset.Subset.refl _, ?_⟩
  rw [List.toFinset_card_of_nodup config.nodup]
  have := List.length_pos_of_mem h
  omega

theorem Explains.durableAt (h : Explains config True prompt σ ρ c) {id : NodeID}
    (hmember : id ∈ config.members) {position : Nat} {entry : LogEntry}
    (hentry : σ.chosen[position]? = some entry) :
    DurableAt config c (position + 1) entry := by
  obtain ⟨T, hT⟩ := h.valid.agreed.attained
  obtain ⟨Q, hQ, hdecided⟩ := h.valid.inv.decided_quorum config.quorum_inter
    (some_quorum hmember) T
  refine ⟨Q, hQ, fun f hf => ⟨σ.log f, h.saves f, ?_⟩⟩
  obtain ⟨hlt, rfl⟩ := List.getElem?_eq_some_iff.mp hentry
  have hfront : σ.chosen <+: σ.log f := hT ▸ hdecided f hf
  rw [Nat.add_sub_cancel, hfront.getElem hlt]
  exact List.getElem?_eq_getElem (hlt.trans_le hfront.length_le)

/--
A mutation answered with success has its entry in the committed log, applied and
durably committed by the node that answers, and saved by a quorum.
-/
theorem acknowledged_durably (config : Config) (c c' : Cluster) (command : Command)
    (h : Run config genuine {} c) (hgenuine : genuine c command)
    (hstep : c.step config command = some c') (node : NodeID) (waiter : Waiter)
    (result : ProposalResult) (session : SessionID) (sequence : UInt64)
    (hanswer : .answered node waiter result ∈ c'.trace.drop c.trace.length)
    (hrequest : waiter.request = .mutation session sequence) (hsucceeds : Succeeds result) :
    ∃ log process position entry, Decides config c' log ∧
      (c'.servers node).process = some process ∧
      process.sessions = config.machine (log.take process.core.lastApplied) ∧
      Answers config log process.core.lastApplied waiter.request result ∧
      0 < position ∧ position ≤ process.core.lastApplied ∧
      process.core.lastApplied ≤ (c'.servers node).disk.commitIndex ∧
      log[position - 1]? = some entry ∧ IsMutation entry ∧ entry.sessionID = session ∧
      entry.sequence = sequence ∧ DurableAt config c' position entry := by
  obtain ⟨σ, ρ, hexplains⟩ := h.explained fun c command => meets_genuine
  obtain ⟨σ', ρ', hcontinues⟩ := hexplains.step (meets_genuine hgenuine) hstep
  obtain ⟨process, hprocess, hanswers⟩ :=
    hcontinues.answers trivial node waiter result hanswer hsucceeds.1
  obtain ⟨position, hle, hpos, entry, hentry, hmatches⟩ := hanswers.carries hsucceeds
  have hserves := (hcontinues.explains.servers node).serves process hprocess
  rw [hrequest] at hmatches
  obtain ⟨hmutation, hsession, hsequence⟩ := hmatches
  obtain ⟨index, rfl⟩ := Nat.exists_eq_succ_of_ne_zero hpos.ne'
  exact ⟨σ'.chosen, process, index + 1, entry, hcontinues.explains.decides, hprocess,
    hserves.sessions trivial, hanswers, hpos, hle,
    hserves.rest.applied_le.trans hserves.rest.commit_eq.le, hentry, hmutation, hsession,
    hsequence, hcontinues.explains.durableAt hserves.member hentry⟩

theorem acknowledged_durably_written : ∃ c c' waiter result log position entry,
    Run threeNodes genuine {} c ∧ c.step threeNodes (deliver 14) = some c' ∧
    .answered nodeA waiter result ∈ c'.trace.drop c.trace.length ∧
    waiter.request = .mutation (sessionNumbered 7) 1 ∧ Succeeds result ∧
    Decides threeNodes c' log ∧ log[position - 1]? = some entry ∧
    entry.sessionID = sessionNumbered 7 ∧ entry.sequence = 1 ∧
    DurableAt threeNodes c' position entry := by
  obtain ⟨c, hrun, hgenuine, c', hstep, ⟨node, waiter, result⟩, hmem, rfl, hrequest, hsucceeds⟩ :
      ∃ c, Run threeNodes genuine {} c ∧ genuine c (deliver 14) ∧
        ∃ c' ∈ c.step threeNodes (deliver 14),
        ∃ shown ∈ answersAmong (c'.trace.drop c.trace.length), shown.1 = nodeA ∧
          shown.2.1.request = .mutation (sessionNumbered 7) 1 ∧
            shown.2.2.rejected = false ∧ shown.2.2.failure = .succeeded :=
    Run.exists_of_follow writing (by decide +kernel)
  have hanswer := mem_answersAmong hmem
  obtain ⟨log, process, position, entry, hdecides, -, -, -, -, -, -, hentry, -, hsession,
    hsequence, hdurable⟩ := acknowledged_durably threeNodes c c' _ hrun hgenuine hstep nodeA waiter
      result _ _ hanswer hrequest hsucceeds
  exact ⟨c, c', waiter, result, log, position, entry, hrun, hstep, hanswer, hrequest, hsucceeds,
    hdecides, hentry, hsession, hsequence, hdurable⟩

theorem quorum_other {Q : Finset NodeID} (h : threeNodes.Quorum Q) (id : NodeID) :
    ∃ f ∈ Q, f ≠ id ∧ f ∈ threeNodes.members := by
  by_contra hnone
  have hsingle : Q ⊆ {id} := by
    intro f hf
    by_contra hne
    exact hnone ⟨f, hf, by simpa using hne, by simpa using h.1 hf⟩
  have hcard := Finset.card_le_card hsingle
  have htwo : 2 ≤ Q.card := h.2
  simp only [Finset.card_singleton] at hcard
  omega

def missingElsewhere (c : Cluster) (id : NodeID) (sequence : UInt64) : Bool :=
  threeNodes.members.all fun other => other == id ||
    decide ((c.servers other).disk.snapshotIndex = 0) &&
      (c.servers other).disk.log.all fun entry => entry.sequence ≠ sequence

theorem not_durableAt {c : Cluster} {id : NodeID} {sequence : UInt64}
    (h : c.missingElsewhere id sequence = true) {position : Nat} {entry : LogEntry}
    (hsequence : entry.sequence = sequence) : ¬ DurableAt threeNodes c position entry := by
  rintro ⟨Q, hquorum, hsaved⟩
  obtain ⟨f, hf, hne, hmember⟩ := quorum_other hquorum id
  obtain ⟨saved, hsaves, hentry⟩ := hsaved f hf
  have hmissing := List.all_eq_true.mp h f hmember
  simp only [Bool.or_eq_true, beq_iff_eq, hne, false_or, Bool.and_eq_true, decide_eq_true_eq,
    List.all_eq_true] at hmissing
  obtain ⟨hbase, hall⟩ := hmissing
  have hlog := hsaves.backs.log_eq
  rw [hbase, List.drop_zero] at hlog
  exact hall entry (hlog ▸ List.mem_of_getElem? hentry) hsequence

/-- After a stale rejection a mutation is acknowledged that only one node has. -/
theorem acknowledged_not_durably : ∃ c c' node waiter result session sequence,
    Run threeNodes anything {} c ∧ c.step threeNodes (deliver 56) = some c' ∧
    .answered node waiter result ∈ c'.trace.drop c.trace.length ∧
    waiter.request = .mutation session sequence ∧ Succeeds result ∧
    ¬ ∃ position entry, entry.sessionID = session ∧ entry.sequence = sequence ∧
      DurableAt threeNodes c' position entry := by
  obtain ⟨c, hrun, c', hstep, hmissing, ⟨node, waiter, result⟩, hmem, hrequest, hsucceeds⟩ :
      ∃ c, Run threeNodes anything resent c ∧ ∃ c' ∈ c.step threeNodes (deliver 56),
        c'.missingElsewhere nodeA 3 = true ∧
        ∃ shown ∈ answersAmong (c'.trace.drop c.trace.length),
          shown.2.1.request = .mutation (sessionNumbered 7) 3 ∧
            shown.2.2.rejected = false ∧ shown.2.2.failure = .succeeded :=
    Run.exists_of_follow [deliver 55] (by decide +kernel)
  refine ⟨c, c', node, waiter, result, _, _, resent_reached.trans hrun, hstep,
    mem_answersAmong hmem, hrequest, hsucceeds, ?_⟩
  rintro ⟨position, entry, -, hsequence, hdurable⟩
  exact not_durableAt hmissing hsequence hdurable

/-- A read is confirmed on a state that includes all that was acknowledged before it began. -/
theorem reads_linearizable (config : Config) (c : Cluster) (h : Run config genuine {} c)
    (node : NodeID) (readID : ReadID) (since : Nat) (sessions : SessionMachine)
    (hread : .readConfirmed node readID since sessions ∈ c.trace) :
    since ≤ c.trace.length ∧ ∃ log count, Decides config c log ∧ count ≤ log.length ∧
      sessions = config.machine (log.take count) ∧
      Includes log count (c.trace.take since) := by
  obtain ⟨σ, ρ, hexplains⟩ := h.explained fun c command => meets_genuine
  obtain ⟨hsince, count, hcount, hsessions, hcovers⟩ :=
    hexplains.trace.observed trivial _ hread
  exact ⟨hsince, σ.chosen, count, hexplains.decides, hcount, hsessions, hcovers⟩

def reading : List Command :=
  writing ++ [deliver 14, .turn (.read nodeA 1 [107]), deliver 15, deliver 16, deliver 17,
    deliver 18]

theorem reads_linearizable_written : ∃ c readID since sessions log count,
    Run threeNodes genuine {} c ∧ .readConfirmed nodeA readID since sessions ∈ c.trace ∧
    Decides threeNodes c log ∧ sessions = threeNodes.machine (log.take count) ∧
    Includes log count (c.trace.take since) ∧
    ∃ waiter result, .answered nodeA waiter result ∈ c.trace.take since ∧ Succeeds result ∧
      waiter.request = .mutation (sessionNumbered 7) 1 := by
  obtain ⟨c, hrun, ⟨node, readID, since, sessions⟩, hread, rfl, ⟨answerer, waiter, result⟩, hmem,
      rfl, hrejected, hfailure, hrequest⟩ : ∃ c, Run threeNodes genuine {} c ∧
        ∃ read ∈ c.confirmations, read.1 = nodeA ∧
        ∃ shown ∈ answersAmong (c.trace.take read.2.2.1), shown.1 = nodeA ∧
          shown.2.2.rejected = false ∧ shown.2.2.failure = .succeeded ∧
            shown.2.1.request = .mutation (sessionNumbered 7) 1 :=
    Run.exists_of_follow reading (by decide +kernel)
  have hread := mem_confirmations hread
  obtain ⟨-, log, count, hdecides, -, hsessions, hincludes⟩ :=
    reads_linearizable threeNodes c hrun nodeA readID since sessions hread
  exact ⟨c, readID, since, sessions, log, count, hrun, hread, hdecides, hsessions, hincludes,
    waiter, result, mem_answersAmong hmem, ⟨hrejected, hfailure⟩, hrequest⟩

/-- After a stale rejection a read misses a mutation acknowledged before it began. -/
theorem read_not_linearizable : ∃ c readID since sessions waiter result,
    Run threeNodes anything {} c ∧ .readConfirmed nodeB readID since sessions ∈ c.trace ∧
    .answered nodeA waiter result ∈ c.trace.take since ∧ Succeeds result ∧
    waiter.request = .mutation (sessionNumbered 7) 3 ∧
    (sessions.recordOf (sessionNumbered 7)).lastSequence = 2 := by
  obtain ⟨c, hrun, ⟨node, readID, since, sessions⟩, hread, rfl, hsequence,
      ⟨answerer, waiter, result⟩, hmem, rfl, hrejected, hfailure, hrequest⟩ :
      ∃ c, Run threeNodes anything resent c ∧ ∃ read ∈ c.confirmations, read.1 = nodeB ∧
        (read.2.2.2.recordOf (sessionNumbered 7)).lastSequence = 2 ∧
        ∃ shown ∈ answersAmong (c.trace.take read.2.2.1), shown.1 = nodeA ∧
          shown.2.2.rejected = false ∧ shown.2.2.failure = .succeeded ∧
            shown.2.1.request = .mutation (sessionNumbered 7) 3 :=
    Run.exists_of_follow (closing ++ [.turn (.read nodeB 1 [107]), deliver 69, deliver 70,
      deliver 71, deliver 72]) (by decide +kernel)
  exact ⟨c, readID, since, sessions, waiter, result, resent_reached.trans hrun,
    mem_confirmations hread, mem_answersAmong hmem, ⟨hrejected, hfailure⟩, hrequest, hsequence⟩

/-- A refused mutation is one that the committed log refuses too. -/
theorem refusals_justified (config : Config) (c : Cluster)
    (h : Run config (fun c command => genuine c command ∧ current c command) {} c)
    (node : NodeID) (waiter : Waiter) (result : ProposalResult) (session : SessionID)
    (sequence : UInt64) (hanswer : .answered node waiter result ∈ c.trace)
    (hrequest : waiter.request = .mutation session sequence)
    (hrejected : result.rejected = false) (hrefused : result.failure ≠ .succeeded) :
    waiter.since ≤ c.trace.length ∧ ∃ log count, Decides config c log ∧ count ≤ log.length ∧
      Includes log count (c.trace.take waiter.since) ∧
      ((config.machine (log.take count)).evaluateMutation session sequence).1 = result := by
  obtain ⟨σ, ρ, hexplains⟩ : ∃ σ ρ, Explains config True True σ ρ c :=
    h.explained fun c command hmeets => ⟨fun _ => hmeets.1, fun _ => hmeets.2⟩
  obtain ⟨hsince, count, hcount, hcovers, hresult⟩ :=
    hexplains.trace.observed trivial _ hanswer trivial session sequence hrequest hrejected
      hrefused
  exact ⟨hsince, σ.chosen, count, hexplains.decides, hcount, hcovers, hresult⟩

def proposes (c : Cluster) : Command → Bool
  | .turn (.propose id client proposal) =>
      (c.servers id).process.all fun p =>
        match prepareProposal id c.trace.length p client proposal with
        | .stepped _ _ _ _ => true
        | .answered _ _ => false
  | _ => true

theorem current_of_proposes {c : Cluster} {command : Command} (h : c.proposes command = true) :
    current c command := by
  unfold current
  split
  next id client proposal =>
    intro p answered observed hp hanswered
    simp [proposes, hp, hanswered] at h
  · trivial

def closingSession : List Command :=
  electing ++
    [.turn (.propose nodeA 1 (.session ⟨1, .openSession, sessionNumbered 7⟩)),
      deliver 6, deliver 8, deliver 9, deliver 10,
      .turn (.propose nodeA 2 (.session ⟨2, .closeSession, sessionNumbered 7⟩)),
      .turn (.propose nodeA 3 (.set ⟨3, sessionNumbered 7, 1, [107], [1]⟩)),
      deliver 11, deliver 12, deliver 13, deliver 14]

theorem refusals_justified_closed : ∃ c waiter result log count,
    Run threeNodes (fun c command => genuine c command ∧ current c command) {} c ∧
    .answered nodeA waiter result ∈ c.trace ∧ result.failure = .closed ∧
    Decides threeNodes c log ∧
    ((threeNodes.machine (log.take count)).evaluateMutation (sessionNumbered 7) 1).1 = result := by
  obtain ⟨c, hrun, ⟨node, waiter, result⟩, hmem, rfl, hrequest, hrejected, hfailure⟩ : ∃ c,
      Run threeNodes (fun c command => genuine c command ∧ c.proposes command = true) {} c ∧
      ∃ shown ∈ answersAmong c.trace, shown.1 = nodeA ∧
        shown.2.1.request = .mutation (sessionNumbered 7) 1 ∧ shown.2.2.rejected = false ∧
          shown.2.2.failure = .closed :=
    Run.exists_of_follow closingSession (by decide +kernel)
  have hrun := hrun.mono fun c command hallowed =>
    (⟨hallowed.1, current_of_proposes hallowed.2⟩ : genuine c command ∧ current c command)
  have hanswer := mem_answersAmong hmem
  obtain ⟨-, log, count, hdecides, -, -, hresult⟩ :=
    refusals_justified threeNodes c hrun nodeA waiter result _ _ hanswer hrequest hrejected
      (hfailure.trans_ne (by simp))
  exact ⟨c, waiter, result, log, count, hrun, hanswer, hfailure, hdecides, hresult⟩

/-- Node B leads before it has applied the session that node A has acknowledged. -/
def overtaking : List Command :=
  electing ++
    [.turn (.propose nodeA 1 (.session ⟨1, .openSession, sessionNumbered 7⟩)),
      deliver 6, deliver 8, deliver 9, deliver 10,
      .turn (.electionTimeout nodeB), deliver 13, deliver 14, deliver 16, deliver 17,
      .turn (.propose nodeB 2 (.set ⟨1, sessionNumbered 7, 1, [107], [1]⟩))]

theorem known_after_open {entry entry' : LogEntry} (hnoOp : entry.type = .noOp)
    (hopen : entry'.type = .openSession) (rest : List LogEntry) (sequence : UInt64) :
    ((threeNodes.machine (entry :: entry' :: rest)).evaluateMutation entry'.sessionID
      sequence).1.failure ≠ .unknown := by
  refine SessionMachine.evaluateMutation_known sequence ?_ ?_
  · refine SessionMachine.applyAll_invariant
      (P := fun m => (m.sessions.lookup entry'.sessionID).isSome)
      (fun m e => SessionMachine.present_apply e) rest ?_
    simp [SessionMachine.apply, hnoOp, hopen, newSessionMachine, threeNodes]
  · exact SessionMachine.applyAll_invariant
      (P := fun m => ∀ s, (m.recordOf s).lastMutationResult = .succeeded)
      (fun m e => SessionMachine.lastMutationResult_apply e) (entry :: entry' :: rest)
      (fun s => rfl) _

/-- A new Leader refuses the first mutation of a session that is committed. -/
theorem refusal_not_justified : ∃ c node waiter result session sequence,
    Run threeNodes genuine {} c ∧ .answered node waiter result ∈ c.trace ∧
    waiter.request = .mutation session sequence ∧ result.rejected = false ∧
    result.failure = .unknown ∧
    ¬ ∃ log count, Decides threeNodes c log ∧ count ≤ log.length ∧
      Includes log count (c.trace.take waiter.since) ∧
      ((threeNodes.machine (log.take count)).evaluateMutation session sequence).1 = result := by
  let noOp : LogEntry := { index := 1, term := 1, type := .noOp }
  let opened : LogEntry :=
    { index := 2, term := 1, type := .openSession, sessionID := sessionNumbered 7 }
  obtain ⟨c, hrun, hfirst, hsecond, ⟨node, waiter, result⟩, hmem, hrequest, hrejected, hfailure,
      ⟨earlier, waiter', result'⟩, hmem', hrejected', hfailure', hrequest'⟩ :
      ∃ c, Run threeNodes genuine {} c ∧ (nodeA, noOp) ∈ c.applications ∧
        (nodeA, opened) ∈ c.applications ∧ ∃ shown ∈ answersAmong c.trace,
          shown.2.1.request = .mutation (sessionNumbered 7) 1 ∧ shown.2.2.rejected = false ∧
          shown.2.2.failure = .unknown ∧
          ∃ earlier ∈ answersAmong (c.trace.take shown.2.1.since),
            earlier.2.2.rejected = false ∧ earlier.2.2.failure = .succeeded ∧
              earlier.2.1.request = .session .openSession (sessionNumbered 7) :=
    Run.exists_of_follow overtaking (by decide +kernel)
  dsimp only at hrequest hrejected hfailure hmem' hrejected' hfailure' hrequest'
  refine ⟨c, node, waiter, result, _, _, hrun, mem_answersAmong hmem, hrequest, hrejected, hfailure,
    ?_⟩
  rintro ⟨log, count, hdecides, -, hincludes, hresult⟩
  have hlog := (hdecides.applied nodeA noOp (mem_applications hfirst)).2
  have hlog' := (hdecides.applied nodeA opened (mem_applications hsecond)).2
  -- The acknowledged session is not at the first position, so it is within what is counted.
  obtain ⟨position, hle, hpos, entry, hentry, hmatches⟩ :=
    hincludes earlier waiter' result' (mem_answersAmong hmem') ⟨hrejected', hfailure'⟩
  have htwo : 2 ≤ count := by
    by_contra hlt
    obtain rfl : position = 1 := by omega
    obtain rfl := Option.some.inj (hlog.symm.trans hentry)
    rw [hrequest'] at hmatches
    simp [Matches, noOp] at hmatches
  obtain ⟨rest, hrest⟩ : ∃ rest, log.take count = noOp :: opened :: rest := by
    obtain ⟨more, rfl⟩ := Nat.exists_eq_add_of_le htwo
    rcases log with _ | ⟨first, _ | ⟨second, others⟩⟩
    · simp at hlog
    · simp [opened] at hlog'
    · obtain rfl : first = noOp := Option.some.inj hlog
      obtain rfl : second = opened := Option.some.inj hlog'
      exact ⟨others.take more, by rw [Nat.add_comm]; rfl⟩
  rw [hrest] at hresult
  exact known_after_open (rfl : noOp.type = .noOp) (rfl : opened.type = .openSession) rest 1
    ((congrArg ProposalResult.failure hresult).trans hfailure)

end Acknowledged

end QuorumKV.Cluster
