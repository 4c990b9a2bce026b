import QuorumKV.Cluster.Upkeep

/-!
# Every run is explained

Each command of a cluster, taken in a state that a consensus state explains,
leads to a state that a later consensus state explains.  By induction every run
has a history of consensus states, each part of the next.
-/

namespace QuorumKV.Cluster

open Raft QuorumKV.Runtime Session Foundation

section Explaining

variable {config : Config} {guarded prompt : Prop} {σ σ' : Ideal} {ρ ρ' : Rounds}
  {c c' : Cluster} {id : NodeID} {turn : Turn}

/-- The conditions that a run meets: none, no stale rejection, or prompt answers too. -/
def Meets (guarded prompt : Prop) (c : Cluster) (command : Command) : Prop :=
  (guarded → genuine c command) ∧ (prompt → current c command)

theorem Explains.stands (h : Explains config guarded prompt σ ρ c) (id : NodeID) :
    Stands config guarded prompt σ ρ c.trace id (c.servers id) where
  valid := h.valid
  tidy := h.tidy
  rounds := h.rounds
  acknowledged hguarded node waiter result hmem hsucceeds := by
    obtain ⟨position, -, hcarries⟩ := h.trace.covered hguarded node waiter result hmem hsucceeds
    exact ⟨position, hcarries.le_length, hcarries⟩
  runs := h.servers id

theorem Explains.after (h : Explains config guarded prompt σ ρ c) (hacts : Acts config id σ σ')
    (hgrows : Rounds.Grows σ id ρ ρ') (hrounds : guarded → TrueRounds config σ' ρ')
    (hcommit : (c.servers id).disk.commitIndex ≤ turn.server.disk.commitIndex)
    (hleaves : Leaves config guarded prompt σ' ρ' c.trace id turn) :
    Explains config guarded prompt σ' ρ' (c.after id turn) := by
  have hcommits : ∀ node, (c.servers node).disk.commitIndex ≤
      ((c.after id turn).servers node).disk.commitIndex := by
    intro node
    by_cases hnode : node = id
    · subst hnode
      simpa [Cluster.after] using hcommit
    · simp [Cluster.after, hnode]
  have hrefl : Acts config id σ' σ' := Acts.refl hacts.valid hacts.tidy
  exact
    { valid := hacts.valid
      tidy := hacts.tidy
      rounds := hrounds
      servers := fun node => by
        by_cases hnode : node = id
        · subst hnode
          simpa [Cluster.after] using hleaves.runs
        · simpa [Cluster.after, hnode] using
            (h.servers node).other hacts hnode hgrows turn.observed h.valid.agreed
      network := fun packet hmem => by
        rcases List.mem_append.mp hmem with hold | hnew
        · exact (h.network packet hold).mono hacts hgrows
        · exact hleaves.sent packet hnew
      trace :=
        { elected := fun node term hmem => by
            rcases List.mem_append.mp hmem with hold | hnew
            · exact hacts.history.lead_eq _ _ (h.trace.elected node term hold)
            · exact hleaves.elected node term hnew
          observed := fun hguarded observation hmem => by
            rcases List.mem_append.mp hmem with hold | hnew
            · exact (h.trace.observed hguarded observation hold).mono hacts turn.observed
            · exact (hleaves.observed hguarded observation hnew).mono hrefl turn.observed
          covered := fun hguarded node waiter result hmem hsucceeds => by
            rcases List.mem_append.mp hmem with hold | hnew
            · obtain ⟨position, hle, hcarries⟩ :=
                h.trace.covered hguarded node waiter result hold hsucceeds
              exact ⟨position, hle.trans (hcommits node), hcarries.mono hacts.history.chosen_le⟩
            · obtain ⟨rfl, hanswers⟩ := hleaves.covered hguarded node waiter result hnew
              obtain ⟨p, hp, hanswers⟩ := hanswers hsucceeds.1
              obtain ⟨position, hle, hcarries⟩ := hanswers.carries hsucceeds
              have hrest := (hleaves.runs.serves p hp).rest
              refine ⟨position, hle.trans ?_, hcarries⟩
              simpa [Cluster.after] using hrest.applied_le.trans hrest.commit_eq.le } }

theorem replace_eq (c : Cluster) (id : NodeID) (server : Server) :
    c.replace id server = c.after id { server := server } := by
  simp [Cluster.replace, Cluster.after]

theorem Explains.replace (h : Explains config guarded prompt σ ρ c) {server : Server}
    (hcommit : (c.servers id).disk.commitIndex ≤ server.disk.commitIndex)
    (hruns : Runs config guarded prompt σ ρ c.trace id server) :
    Explains config guarded prompt σ ρ (c.replace id server) := by
  rw [replace_eq]
  exact h.after (Acts.refl h.valid h.tidy) (Rounds.Grows.refl σ id ρ) h.rounds hcommit
    (Leaves.quiet hruns)

theorem Explains.heard (h : Explains config guarded prompt σ ρ c) {selection : Selection}
    {input : Input} {p : Process} (hselect : c.select selection = some (id, input))
    (hprocess : (c.servers id).process = some p)
    (hgenuine : guarded → genuine c (.turn selection)) :
    Heard config guarded σ ρ id p.core input := by
  cases selection with
  | deliver position =>
      simp only [select] at hselect
      split at hselect
      · simp at hselect
      next packet hpacket =>
        obtain ⟨rfl, rfl⟩ := Prod.mk.inj (Option.some.inj hselect)
        refine ⟨h.network packet (List.mem_of_getElem? hpacket), fun hguarded response hsame => ?_⟩
        refine hgenuine hguarded packet.dest response p ?_ hprocess
        rw [hpacket, ← hsame]
  | _ =>
      obtain ⟨rfl, rfl⟩ := Prod.mk.inj (Option.some.inj hselect)
      trivial

theorem Explains.acknowledged (h : Explains config guarded prompt σ ρ c) {selection : Selection}
    {input : Input} {p answered : Process} {observed : List Observation}
    (hselect : c.select selection = some (id, input))
    (hprocess : (c.servers id).process = some p)
    (hprepare : prepare config id c.trace.length p input = some (.answered answered observed))
    (hcurrent : prompt → current c (.turn selection)) (hguarded : guarded) (hprompt : prompt) :
    Covers σ c.trace p.core.lastApplied := by
  have hall : ∀ other, (c.servers other).disk.commitIndex ≤ p.core.lastApplied := by
    obtain ⟨client, proposal, rfl⟩ : ∃ client proposal, input = .propose client proposal := by
      cases prepare_answered hprepare <;> exact ⟨_, _, rfl⟩
    cases selection with
    | propose node client' proposal' =>
        obtain ⟨rfl, heq⟩ := Prod.mk.inj (Option.some.inj hselect)
        obtain ⟨rfl, rfl⟩ := Input.propose.inj heq
        exact hcurrent hprompt p answered observed hprocess (Option.some.inj hprepare)
    | deliver position =>
        simp only [select] at hselect
        split at hselect <;> simp at hselect
    | _ => simp [select] at hselect
  intro node waiter result hmem hsucceeds
  obtain ⟨position, hle, hcarries⟩ := h.trace.covered hguarded node waiter result hmem hsucceeds
  exact ⟨position, hle.trans (hall node), hcarries⟩

theorem turn_prepared {selection : Selection} {core : Node} {event : Event}
    (h : stepped config c (.turn selection) = some (id, core, event)) :
    ∃ input p p' saved waiter, c.select selection = some (id, input) ∧
      (c.servers id).process = some p ∧
      prepare config id c.trace.length p input = some (.stepped p' saved event waiter) ∧
      p'.core = core := by
  simp only [stepped] at h
  split at h
  · simp at h
  next node input hselect =>
    split at h
    · simp at h
    next p hprocess =>
      split at h
      next p' saved event' waiter hprepare =>
        obtain ⟨rfl, hcore, rfl⟩ : node = id ∧ p'.core = core ∧ event' = event := by
          simpa using h
        exact ⟨input, p, p', saved, waiter, hselect, hprocess, hprepare, hcore⟩
      · simp at h

/-- The turn in which a command steps a runtime, whole or cut short. -/
theorem stepped_prepared {command : Command} {core : Node} {event : Event}
    (h : stepped config c command = some (id, core, event)) :
    ∃ selection input p p' saved waiter, (genuine c command → genuine c (.turn selection)) ∧
      c.select selection = some (id, input) ∧ (c.servers id).process = some p ∧
      prepare config id c.trace.length p input = some (.stepped p' saved event waiter) ∧
      p'.core = core := by
  obtain ⟨selection, hgenuine, hturn⟩ : ∃ selection,
      (genuine c command → genuine c (.turn selection)) ∧
      stepped config c (.turn selection) = some (id, core, event) := by
    cases command with
    | turn selection => exact ⟨selection, fun hgenuine => hgenuine, h⟩
    | crashDuring selection calls kept =>
        exact ⟨selection, by cases selection <;> exact fun hgenuine => hgenuine, h⟩
    | _ => simp [stepped] at h
  obtain ⟨input, p, p', saved, waiter, hprepared⟩ := turn_prepared hturn
  exact ⟨selection, input, p, p', saved, waiter, hgenuine, hprepared⟩

theorem Explains.prompted (h : Explains config guarded prompt σ ρ c) {command : Command}
    (hgenuine : guarded → genuine c command) {core : Node} {event : Event}
    (hstepped : stepped config c command = some (id, core, event)) :
    ∃ ρ' p saved waiter, p.core = core ∧ Rounds.Grows σ id ρ ρ' ∧
      Prompted config guarded prompt σ ρ' c.trace id (c.servers id).disk
        (saved ++ (c.servers id).files) p event waiter := by
  obtain ⟨selection, input, p, p', saved, waiter, hturn, hselect, hprocess, hprepare, hcore⟩ :=
    stepped_prepared hstepped
  obtain ⟨ρ', hgrows, hprompted⟩ := (h.stands id).prepared hprocess
    (h.heard hselect hprocess fun hguarded => hturn (hgenuine hguarded)) hprepare
  exact ⟨ρ', p', saved, waiter, hcore, hgrows, hprompted⟩

structure Continues (config : Config) (guarded prompt : Prop) (σ : Ideal) (c : Cluster)
    (command : Command) (c' : Cluster) (σ' : Ideal) (ρ' : Rounds) : Prop where
  explains : Explains config guarded prompt σ' ρ' c'
  history : σ.Extends σ'
  tells : ∀ id core event, stepped config c command = some (id, core, event) →
    Tells guarded σ' id core event
  answers : guarded → ∀ node waiter result,
    .answered node waiter result ∈ c'.trace.drop c.trace.length → result.rejected = false →
    ∃ p, (c'.servers node).process = some p ∧
      Answers config σ'.chosen p.core.lastApplied waiter.request result

theorem Leaves.answers (h : Leaves config guarded prompt σ ρ c.trace id turn) (hguarded : guarded)
    (node : NodeID) (waiter : Waiter) (result : ProposalResult)
    (hmem : .answered node waiter result ∈ (c.after id turn).trace.drop c.trace.length)
    (hrejected : result.rejected = false) :
    ∃ p, ((c.after id turn).servers node).process = some p ∧
      Answers config σ.chosen p.core.lastApplied waiter.request result := by
  simp only [Cluster.after, List.drop_left] at hmem
  obtain ⟨rfl, hanswers⟩ := h.covered hguarded node waiter result hmem
  simpa [Cluster.after] using hanswers hrejected

theorem Explains.continues (h : Explains config guarded prompt σ ρ c) {command : Command}
    {core : Node} {event : Event} (hgrows : Rounds.Grows σ id ρ ρ')
    (hrounds : guarded → TrueRounds config σ ρ')
    (hstepped : stepped config c command = some (id, core, event))
    (hexplained : ∃ σ', Acts config id σ σ' ∧ Tells guarded σ' id core event ∧
      (c.servers id).disk.commitIndex ≤ turn.server.disk.commitIndex ∧
      Leaves config guarded prompt σ' ρ' c.trace id turn) :
    ∃ σ' ρ', Continues config guarded prompt σ c command (c.after id turn) σ' ρ' := by
  obtain ⟨σ', hacts, htells, hcommit, hleaves⟩ := hexplained
  refine ⟨σ', ρ', h.after hacts hgrows (fun hguarded => (hrounds hguarded).mono hacts) hcommit
    hleaves, hacts.history, ?_, hleaves.answers⟩
  intro node other event' hother
  obtain ⟨rfl, rfl, rfl⟩ : id = node ∧ core = other ∧ event = event' := by
    simpa using hstepped.symm.trans hother
  exact htells

theorem Explains.turned (h : Explains config guarded prompt σ ρ c) {selection : Selection}
    {input : Input} (hmeets : Meets guarded prompt c (.turn selection))
    (hselect : c.select selection = some (id, input))
    (hserve : (c.servers id).serve config id c.trace.length input = some turn) :
    ∃ σ' ρ', Continues config guarded prompt σ c (.turn selection) (c.after id turn) σ' ρ' := by
  obtain ⟨p, hprocess, hserved⟩ := Server.serve_served hserve
  have hstepped : ∀ p' saved event waiter,
      prepare config id c.trace.length p input = some (.stepped p' saved event waiter) →
      ∃ σ' ρ', Continues config guarded prompt σ c (.turn selection) (c.after id turn) σ' ρ' := by
    intro p' saved event waiter hprepare
    obtain ⟨ρ', hgrows, hprompted⟩ :=
      (h.stands id).prepared hprocess (h.heard hselect hprocess hmeets.1) hprepare
    refine h.continues hgrows hprompted.rounds ?_ (hprompted.serve hprocess hprepare hserve)
    simp [stepped, hselect, hprocess, hprepare]
  cases hserved with
  | answered hprepare =>
      have hleaves := (h.stands id).answered hprocess hprepare
        (h.acknowledged hselect hprocess hprepare hmeets.2)
      refine ⟨σ, ρ, h.after (Acts.refl h.valid h.tidy) (Rounds.Grows.refl σ id ρ) h.rounds le_rfl
        hleaves, Consensus.Extends.refl σ, ?_, hleaves.answers⟩
      intro node core event hstepped
      simp [stepped, hselect, hprocess, hprepare] at hstepped
  | ended hprepare => exact hstepped _ _ _ _ hprepare
  | finished hprepare => exact hstepped _ _ _ _ hprepare

theorem Explains.crashedDuring (h : Explains config guarded prompt σ ρ c) {selection : Selection}
    {calls kept : Nat} {input : Input}
    (hmeets : Meets guarded prompt c (.crashDuring selection calls kept))
    (hselect : c.select selection = some (id, input))
    (hcrash : (c.servers id).crashDuring config id c.trace.length input calls kept = some turn) :
    ∃ σ' ρ', Continues config guarded prompt σ c (.crashDuring selection calls kept)
      (c.after id turn) σ' ρ' := by
  have hcrash' := hcrash
  unfold Server.crashDuring at hcrash'
  split at hcrash'
  · simp at hcrash'
  next p hprocess =>
    have hheard := h.heard hselect hprocess (fun hguarded => by
      have := hmeets.1 hguarded
      cases selection <;> exact this)
    split at hcrash'
    next p' saved event waiter hprepare =>
      obtain ⟨ρ', hgrows, hprompted⟩ := (h.stands id).prepared hprocess hheard hprepare
      refine h.continues hgrows hprompted.rounds ?_
        (hprompted.crashDuring hprocess hprepare hcrash)
      simp [stepped, hselect, hprocess, hprepare]
    · simp at hcrash'

theorem start_shown {server : Server} (hstart : server.start config id = some turn) :
    ∀ observation ∈ turn.observed, ∃ entry, observation = .applied id entry := by
  have happlied : ∀ actions, ∀ observation ∈ recoveredEntries id actions,
      ∃ entry, observation = .applied id entry := by
    intro actions
    fun_induction recoveredEntries id actions with
    | case1 entry actions ih => simpa using ih
    | case2 => simp
  obtain ⟨_, _, _, _, progress, -, -, -, -, rfl⟩ := Server.start_ok hstart
  exact happlied _

theorem Explains.step (h : Explains config guarded prompt σ ρ c) {command : Command}
    (hmeets : Meets guarded prompt c command) (hstep : c.step config command = some c') :
    ∃ σ' ρ', Continues config guarded prompt σ c command c' σ' ρ' := by
  have hsilent : Explains config guarded prompt σ ρ c' → stepped config c command = none →
      (∀ node waiter result, .answered node waiter result ∉ c'.trace.drop c.trace.length) →
      ∃ σ' ρ', Continues config guarded prompt σ c command c' σ' ρ' := by
    intro hexplains hnone hshown
    exact ⟨σ, ρ, hexplains, Consensus.Extends.refl σ, by simp [hnone],
      fun _ node waiter result hmem => absurd hmem (hshown node waiter result)⟩
  cases step_does hstep with
  | turn hselect hserve => exact h.turned hmeets hselect hserve
  | crashDuring hselect hcrash => exact h.crashedDuring hmeets hselect hcrash
  | start hmember hstart =>
      obtain ⟨hleaves, hcommit⟩ := (h.stands _).start hmember hstart
      refine hsilent (h.after (Acts.refl h.valid h.tidy) (Rounds.Grows.refl σ _ ρ) h.rounds
        hcommit.ge hleaves) rfl ?_
      intro node waiter result hmem
      simp only [Cluster.after, List.drop_left] at hmem
      obtain ⟨entry, heq⟩ := start_shown hstart _ hmem
      simp at heq
  | @upkeep id _ _ hkept =>
      obtain ⟨hruns, hcommit⟩ := (h.stands id).upkeep hkept
      exact hsilent (h.replace hcommit hruns) (by cases hkept <;> rfl)
        (by simp [Cluster.replace])

end Explaining

/-! ## Runs -/

section Runs

variable {config : Config} {guarded prompt : Prop} {allowed : Cluster → Command → Prop}
  {σ : Ideal} {ρ : Rounds} {c c' : Cluster}

theorem explains_initial :
    Explains config guarded prompt Consensus.initial (fun _ _ => none) {} where
  valid := Consensus.valid_initial
  tidy := ⟨fun T => by simp [Consensus.initial, Numbered], fun f T c hvote => by
    simp [Consensus.initial] at hvote⟩
  rounds _ T readID round hround := by simp at hround
  servers id :=
    { stored :=
        { term_eq := rfl
          vote_eq := rfl
          base_le := le_rfl
          commit_le := le_rfl
          baseTerm := rfl
          log_eq := rfl
          filed := fun hpos => absurd hpos (Nat.lt_irrefl 0)
          known := fun _ => ⟨0, Nat.zero_le _, by simp [Consensus.initial]⟩ }
      owned := by simp
      serves := by simp }
  network := by simp
  trace := ⟨by simp, by simp, by simp⟩

/-- What explains the first state of a run is part of what explains its last. -/
theorem Run.explained_from (h : Run config allowed c c')
    (hallowed : ∀ c command, allowed c command → Meets guarded prompt c command)
    (hexplains : Explains config guarded prompt σ ρ c) :
    ∃ σ' ρ', Explains config guarded prompt σ' ρ' c' ∧ σ.Extends σ' := by
  induction h with
  | refl => exact ⟨σ, ρ, hexplains, Consensus.Extends.refl σ⟩
  | next before permitted stepped ih =>
      obtain ⟨σ₁, ρ₁, hexplains₁, hextends₁⟩ := ih
      obtain ⟨σ₂, ρ₂, hcontinues⟩ := hexplains₁.step (hallowed _ _ permitted) stepped
      exact ⟨σ₂, ρ₂, hcontinues.explains, hextends₁.trans hcontinues.history⟩

theorem Run.explained (h : Run config allowed {} c)
    (hallowed : ∀ c command, allowed c command → Meets guarded prompt c command) :
    ∃ σ ρ, Explains config guarded prompt σ ρ c := by
  obtain ⟨σ, ρ, hexplains, -⟩ := h.explained_from hallowed explains_initial
  exact ⟨σ, ρ, hexplains⟩

theorem Run.trans {c'' : Cluster} (h : Run config allowed c c') (h' : Run config allowed c' c'') :
    Run config allowed c c'' := by
  induction h' with
  | refl => exact h
  | next before permitted stepped ih => exact .next ih permitted stepped

theorem Run.mono {allowed' : Cluster → Command → Prop} (h : Run config allowed c c')
    (hallowed : ∀ c command, allowed c command → allowed' c command) :
    Run config allowed' c c' := by
  induction h with
  | refl => exact .refl _
  | next before permitted stepped ih => exact .next ih (hallowed _ _ permitted) stepped

end Runs

/-! ## Taking commands one by one -/

section Following

variable {config : Config} {allowed : Cluster → Command → Prop}
  [∀ c command, Decidable (allowed c command)] {c c' : Cluster} {commands : List Command}

def follow (config : Config) (allowed : Cluster → Command → Prop)
    [∀ c command, Decidable (allowed c command)] (c : Cluster) : List Command → Option Cluster
  | [] => some c
  | command :: commands =>
      if allowed c command then
        match c.step config command with
        | none => none
        | some c => follow config allowed c commands
      else none

theorem Run.of_follow (h : follow config allowed c commands = some c') :
    Run config allowed c c' := by
  induction commands generalizing c with
  | nil =>
      obtain rfl := Option.some.inj h
      exact .refl c
  | cons command commands ih =>
      simp only [follow] at h
      split at h
      next hallowed =>
        split at h
        · simp at h
        next middle hstep => exact (Run.next (.refl c) hallowed hstep).trans (ih h)
      · simp at h

/-- A run that ends in a state with a property that can be computed. -/
theorem Run.exists_of_follow {property : Cluster → Prop} (commands : List Command)
    (h : ∃ c' ∈ follow config allowed c commands, property c') :
    ∃ c', Run config allowed c c' ∧ property c' :=
  h.imp fun _ hfound => ⟨.of_follow hfound.1, hfound.2⟩

end Following

def elections (c : Cluster) : List (NodeID × Nat) :=
  c.trace.filterMap fun
    | .becameLeader node term => some (node, term)
    | _ => none

def applications (c : Cluster) : List (NodeID × LogEntry) :=
  c.trace.filterMap fun
    | .applied node entry => some (node, entry)
    | _ => none

def answersAmong (shown : List Observation) : List (NodeID × Waiter × ProposalResult) :=
  shown.filterMap fun
    | .answered node waiter result => some (node, waiter, result)
    | _ => none

def confirmations (c : Cluster) : List (NodeID × ReadID × Nat × SessionMachine) :=
  c.trace.filterMap fun
    | .readConfirmed node readID since sessions => some (node, readID, since, sessions)
    | _ => none

theorem mem_elections {c : Cluster} {node : NodeID} {term : Nat} (h : (node, term) ∈ c.elections) :
    .becameLeader node term ∈ c.trace := by
  obtain ⟨observation, hmem, heq⟩ := List.mem_filterMap.mp h
  split at heq
  · simp_all
  · simp at heq

theorem mem_applications {c : Cluster} {node : NodeID} {entry : LogEntry}
    (h : (node, entry) ∈ c.applications) : .applied node entry ∈ c.trace := by
  obtain ⟨observation, hmem, heq⟩ := List.mem_filterMap.mp h
  split at heq
  · simp_all
  · simp at heq

theorem mem_answersAmong {shown : List Observation} {node : NodeID} {waiter : Waiter}
    {result : ProposalResult} (h : (node, waiter, result) ∈ answersAmong shown) :
    .answered node waiter result ∈ shown := by
  obtain ⟨observation, hmem, heq⟩ := List.mem_filterMap.mp h
  split at heq
  · simp_all
  · simp at heq

theorem mem_confirmations {c : Cluster} {node : NodeID} {readID : ReadID} {since : Nat}
    {sessions : SessionMachine} (h : (node, readID, since, sessions) ∈ c.confirmations) :
    .readConfirmed node readID since sessions ∈ c.trace := by
  obtain ⟨observation, hmem, heq⟩ := List.mem_filterMap.mp h
  split at heq
  · simp_all
  · simp at heq

instance (core : Node) (response : AppendEntriesResponse) :
    Decidable (staleRejection core response) :=
  inferInstanceAs (Decidable (_ ∧ _ ∧ _ ∧ _ ∧ ¬ (_ ∧ _ ∧ _)))

def genuineAt (c : Cluster) (position : Nat) : Bool :=
  match c.network[position]? with
  | some ⟨dest, .appendEntriesResponse response⟩ =>
      match (c.servers dest).process with
      | some process => !decide (staleRejection process.core response)
      | none => true
  | _ => true

theorem genuineAt_iff {c : Cluster} {position : Nat} :
    c.genuineAt position = true ↔ genuine c (.turn (.deliver position)) := by
  unfold genuineAt genuine
  split
  next dest response hpacket =>
    split
    next process hprocess =>
      simp only [Bool.not_eq_true', decide_eq_false_iff_not]
      refine ⟨fun hstale dest' response' process' hpacket' hprocess' => ?_,
        fun hall => hall dest response process hpacket hprocess⟩
      rw [hpacket] at hpacket'
      obtain ⟨rfl, rfl⟩ : dest = dest' ∧ response = response' := by simpa using hpacket'
      obtain rfl := Option.some.inj (hprocess.symm.trans hprocess')
      exact hstale
    next hprocess =>
      refine ⟨fun _ dest' response' process' hpacket' hprocess' => ?_, fun _ => rfl⟩
      rw [hpacket] at hpacket'
      obtain ⟨rfl, rfl⟩ : dest = dest' ∧ response = response' := by simpa using hpacket'
      simp [hprocess] at hprocess'
  next hother =>
    exact ⟨fun _ dest response process hpacket => absurd hpacket (hother dest response),
      fun _ => rfl⟩

def isGenuine (c : Cluster) : Command → Bool
  | .turn (.deliver position) | .crashDuring (.deliver position) _ _ => c.genuineAt position
  | _ => true

theorem isGenuine_iff {c : Cluster} {command : Command} :
    c.isGenuine command = true ↔ genuine c command := by
  unfold isGenuine
  split
  · exact genuineAt_iff
  · exact genuineAt_iff
  next hturn hcrash =>
    unfold genuine
    split
    next position => exact absurd rfl (hturn position)
    next position calls kept => exact absurd rfl (hcrash position calls kept)
    · simp

instance (c : Cluster) (command : Command) : Decidable (genuine c command) :=
  decidable_of_iff _ isGenuine_iff

end QuorumKV.Cluster
