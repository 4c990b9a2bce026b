import QuorumKV.Cluster.Clients

/-!
# One incarnation of a node

A node between a start and the next: which of its writes the WAL takes, how its
state machine moves, and which appends of its Leader it accepts.
-/

namespace QuorumKV.Cluster

open Raft QuorumKV.Runtime Session Foundation

/-! ## Moving the state machine -/

def mover : Observation → Option NodeID
  | .applied node _ => some node
  | .restored node _ _ _ => some node
  | _ => none

def appliedBy (id : NodeID) : Observation → Option Nat
  | .applied node entry => if node = id then some entry.index else none
  | _ => none

def Moves (id : NodeID) (applied next : Nat) : Observation → Prop
  | .applied node entry =>
      if node = id then entry.index = applied + 1 ∧ next = applied + 1 else next = applied
  | .restored node index _ _ => if node = id then applied < index ∧ next = index else next = applied
  | _ => next = applied

def Advances (id : NodeID) : Nat → List Observation → Nat → Prop
  | applied, [], last => applied = last
  | applied, observation :: shown, last =>
      ∃ next, Moves id applied next observation ∧ Advances id next shown last

section Moving

variable {id : NodeID} {applied middle next last : Nat} {observation : Observation}
  {shown later : List Observation}

theorem moves_still (h : mover observation ≠ some id) : Moves id applied applied observation := by
  cases observation with
  | applied _ _ | restored _ _ _ _ =>
      simp only [mover, ne_eq, Option.some.injEq] at h
      exact (if_neg h).mpr rfl
  | _ => rfl

theorem Moves.le (h : Moves id applied next observation) : applied ≤ next := by
  cases observation with
  | applied _ _ | restored _ _ _ _ =>
      simp only [Moves] at h
      split at h <;> omega
  | _ => exact Nat.le_of_eq h.symm

theorem Moves.appliedBy {index : Nat} (h : Moves id applied next observation)
    (happlied : appliedBy id observation = some index) : index = next ∧ applied < next := by
  cases observation with
  | applied node entry =>
      simp only [Cluster.appliedBy] at happlied
      split at happlied
      next hnode =>
        cases happlied
        simp only [Moves, if_pos hnode] at h
        omega
      · simp at happlied
  | _ => simp [Cluster.appliedBy] at happlied

theorem Advances.append (h : Advances id applied shown middle)
    (h' : Advances id middle later last) : Advances id applied (shown ++ later) last := by
  induction shown generalizing applied with
  | nil =>
      obtain rfl : applied = middle := h
      exact h'
  | cons observation shown ih =>
      obtain ⟨next, hmoves, hrest⟩ := h
      exact ⟨next, hmoves, ih hrest⟩

theorem Advances.still (h : ∀ observation ∈ shown, mover observation ≠ some id) :
    Advances id applied shown applied := by
  induction shown with
  | nil => rfl
  | cons observation shown ih =>
      exact ⟨applied, moves_still (h observation (by simp)),
        ih fun other hmem => h other (by simp [hmem])⟩

theorem Advances.le (h : Advances id applied shown last) : applied ≤ last := by
  induction shown generalizing applied with
  | nil => exact Nat.le_of_eq h
  | cons observation shown ih =>
      obtain ⟨next, hmoves, hrest⟩ := h
      exact hmoves.le.trans (ih hrest)

theorem Advances.once (h : Advances id applied shown last) :
    (applied :: shown.filterMap (appliedBy id)).Pairwise (· < ·) := by
  induction shown generalizing applied with
  | nil => simp
  | cons observation shown ih =>
      obtain ⟨next, hmoves, hrest⟩ := h
      obtain ⟨hlater, hpairs⟩ := List.pairwise_cons.mp (ih hrest)
      cases happlied : appliedBy id observation with
      | none =>
          rw [List.filterMap_cons_none happlied]
          exact List.pairwise_cons.mpr
            ⟨fun index hmem => hmoves.le.trans_lt (hlater index hmem), hpairs⟩
      | some index =>
          obtain ⟨rfl, hlt⟩ := hmoves.appliedBy happlied
          rw [List.filterMap_cons_some happlied]
          refine List.pairwise_cons.mpr ⟨fun other hmem => ?_, List.pairwise_cons.mpr ⟨hlater, hpairs⟩⟩
          rcases List.mem_cons.mp hmem with rfl | hmem
          · exact hlt
          · exact hlt.trans (hlater other hmem)

theorem Advances.entries {entries : List LogEntry} {count : Nat}
    (h : entries.map LogEntry.index = List.range' (applied + 1) count) :
    Advances id applied (entries.map (.applied id)) (applied + count) := by
  induction entries generalizing applied count with
  | nil =>
      cases count with
      | zero => rfl
      | succ count => simp [List.range'_succ] at h
  | cons entry entries ih =>
      cases count with
      | zero => simp at h
      | succ count =>
          simp only [List.map_cons, List.range'_succ, List.cons.injEq] at h
          refine ⟨applied + 1, (if_pos rfl).mpr ⟨h.1, rfl⟩, ?_⟩
          have hrest := ih h.2
          rwa [Nat.add_assoc, Nat.add_comm 1 count] at hrest

end Moving

/-! ## What the actions of a step show -/

def Rises : Nat → List Action → Prop
  | _, [] => True
  | applied, .applyEntry _ :: actions => Rises (applied + 1) actions
  | applied, .restoreSnapshot index _ :: actions => applied < index ∧ Rises index actions
  | applied, _ :: actions => Rises applied actions

section Showing

variable {config : Config} {id : NodeID} {files : List Snapshot.State} {state state' : LoopState}

theorem Rises.none {actions : List Action}
    (h : ∀ index term, .restoreSnapshot index term ∉ actions) (applied : Nat) :
    Rises applied actions := by
  induction actions generalizing applied with
  | nil => trivial
  | cons action actions ih =>
      have hrest := ih fun index term hmem => h index term (by simp [hmem])
      cases action with
      | restoreSnapshot index term => exact absurd (by simp) (h index term)
      | _ => exact hrest _

theorem Rises.single {actions : List Action} {index term applied : Nat}
    (hnone : ∀ entry, .applyEntry entry ∉ actions)
    (hsame : ∀ index' term', .restoreSnapshot index' term' ∈ actions →
      index' = index ∧ term' = term)
    (honce : actions.count (.restoreSnapshot index term) ≤ 1) (hlt : applied < index) :
    Rises applied actions := by
  induction actions with
  | nil => trivial
  | cons action actions ih =>
      have hrest := fun hcount => ih (fun entry hmem => hnone entry (by simp [hmem]))
        (fun index' term' hmem => hsame index' term' (by simp [hmem])) hcount
      cases action with
      | applyEntry entry => exact absurd (by simp) (hnone entry)
      | restoreSnapshot index' term' =>
          obtain ⟨rfl, rfl⟩ := hsame index' term' (by simp)
          refine ⟨hlt, Rises.none (fun other term'' hmem => ?_) _⟩
          obtain ⟨rfl, rfl⟩ := hsame other term'' (by simp [hmem])
          have hzero := List.count_pos_iff.mpr hmem
          rw [List.count_cons_self] at honce
          omega
      | _ =>
          rw [List.count_cons_of_ne (by simp)] at honce
          exact hrest honce

def Shown (id : NodeID) (shown : List Observation) : Action → Prop
  | .applyEntry entry =>
      ∃ rest, shown = .applied id entry :: rest ∧ ∀ observation ∈ rest, mover observation = none
  | .restoreSnapshot index term => ∃ sessions, shown = [.restored id index term sessions]
  | _ => ∀ observation ∈ shown, mover observation = none

theorem carryOut_shown {action : Action}
    (h : carryOut config id files state action = some state') :
    ∃ shown, state'.observed = state.observed ++ shown ∧
      state'.process.core = state.process.core ∧ Shown id shown action := by
  have hquiet : ∀ result : LoopState, result.observed = state.observed →
      result.process.core = state.process.core →
      ∃ shown, result.observed = state.observed ++ shown ∧
        result.process.core = state.process.core ∧
        ∀ observation ∈ shown, mover observation = none :=
    fun result hobserved hcore => ⟨[], by simp [hobserved], hcore, by simp⟩
  cases action with
  | applyEntry entry =>
      cases h
      refine ⟨_, rfl, rfl, _, rfl, fun observation hmem => ?_⟩
      obtain ⟨waiting, -, rfl⟩ := List.mem_map.mp hmem
      rfl
  | restoreSnapshot index term =>
      simp only [carryOut, restoreSnapshot] at h
      split at h
      · simp at h
      · split at h
        · simp at h
        · split at h
          · simp at h
          · cases h
            exact ⟨_, rfl, rfl, _, rfl⟩
  | readConfirmed readID index =>
      cases h
      refine ⟨_, rfl, rfl, fun observation hmem => ?_⟩
      rcases List.mem_append.mp hmem with hmem | hmem <;>
      · obtain ⟨waiting, -, rfl⟩ := List.mem_map.mp hmem
        rfl
  | readRejected readID leaderID =>
      cases h
      exact ⟨_, rfl, rfl, by simp [Shown, mover]⟩
  | proposalAccepted proposalID index =>
      cases h
      refine hquiet _ ?_ ?_ <;>
      · simp only [acceptProposal]
        split <;> rfl
  | proposalRejected proposalID leaderID =>
      simp only [carryOut] at h
      split at h
      · cases h
        exact hquiet _ rfl rfl
      · cases h
        exact ⟨_, rfl, rfl, by simp [Shown, mover]⟩
  | sendInstallSnapshot dest term requestID index snapshotTerm offset =>
      simp only [carryOut] at h
      split at h <;>
      · cases h
        exact hquiet _ rfl rfl
  | _ =>
      cases h
      exact hquiet _ rfl rfl

theorem Shown.advances {log : List LogEntry} {confirms : ReadID → Nat → Prop} {action : Action}
    {actions : List Action} {shown : List Observation} {applied last : Nat}
    (h : Shown id shown action) (hnumbered : Numbered log)
    (hwalk : Walk log confirms applied (action :: actions) last)
    (hrises : Rises applied (action :: actions)) :
    ∃ middle, Advances id applied shown middle ∧ Walk log confirms middle actions last ∧
      Rises middle actions := by
  have hstill : (∀ observation ∈ shown, mover observation = none) →
      Advances id applied shown applied :=
    fun hnone => .still fun observation hmem => by simp [hnone observation hmem]
  cases action with
  | applyEntry entry =>
      obtain ⟨rest, rfl, hrest⟩ := h
      obtain ⟨hentry, hwalk⟩ := hwalk
      refine ⟨applied + 1, ?_, hwalk, hrises⟩
      refine ⟨applied + 1, (if_pos rfl).mpr ⟨hnumbered applied entry hentry, rfl⟩, ?_⟩
      exact .still fun observation hmem => by simp [hrest observation hmem]
  | restoreSnapshot index term =>
      obtain ⟨sessions, rfl⟩ := h
      refine ⟨index, ?_, hwalk.2.2, hrises.2⟩
      exact ⟨index, (if_pos rfl).mpr ⟨hrises.1, rfl⟩, rfl⟩
  | readConfirmed readID index => exact ⟨applied, hstill h, hwalk.2, hrises⟩
  | _ => exact ⟨applied, hstill h, hwalk, hrises⟩

theorem carryOutAll_advances {actions : List Action}
    (h : carryOutAll config id files state actions = some state') :
    ∃ shown, state'.observed = state.observed ++ shown ∧
      state'.process.core = state.process.core ∧
      (∀ observation ∈ shown, mover observation = none ∨ mover observation = some id) ∧
      ∀ log confirms applied last, Numbered log → Walk log confirms applied actions last →
        Rises applied actions → Advances id applied shown last := by
  induction actions generalizing state with
  | nil =>
      cases h
      exact ⟨[], by simp, rfl, by simp, fun log confirms applied last _ hwalk _ => hwalk⟩
  | cons action actions ih =>
      simp only [carryOutAll] at h
      split at h
      · simp at h
      next middle hnext =>
        obtain ⟨shown, hobserved, hcore, hshown⟩ := carryOut_shown hnext
        obtain ⟨later, hobserved', hcore', hmovers, hadvances⟩ := ih h
        refine ⟨shown ++ later, by rw [hobserved', hobserved, List.append_assoc],
          hcore'.trans hcore, fun observation hmem => ?_, ?_⟩
        · rcases List.mem_append.mp hmem with hmem | hmem
          · cases action with
            | applyEntry entry =>
                obtain ⟨rest, rfl, hrest⟩ := hshown
                rcases List.mem_cons.mp hmem with rfl | hmem
                · exact .inr rfl
                · exact .inl (hrest observation hmem)
            | restoreSnapshot index term =>
                obtain ⟨sessions, rfl⟩ := hshown
                obtain rfl := List.mem_singleton.mp hmem
                exact .inr rfl
            | _ => exact .inl (hshown observation hmem)
          · exact hmovers observation hmem
        · intro log confirms applied last hnumbered hwalk hrises
          obtain ⟨position, hmoved, hwalk', hrises'⟩ := hshown.advances hnumbered hwalk hrises
          exact hmoved.append (hadvances log confirms position last hnumbered hwalk' hrises')

theorem entered_still (id other : NodeID) (core : Node) (event : Event) :
    ∀ observation ∈ entered id core event, mover observation ≠ some other := by
  intro observation hmem
  unfold entered at hmem
  split at hmem
  · obtain rfl := List.mem_singleton.mp hmem
    simp [mover]
  · simp at hmem

theorem afterActions_shown (id : NodeID) (wasLeader : Bool) (state : LoopState) :
    (afterActions id wasLeader state).process.core = state.process.core ∧
      ∃ shown, (afterActions id wasLeader state).observed = state.observed ++ shown ∧
        ∀ observation ∈ shown, mover observation = none := by
  unfold afterActions
  split
  · refine ⟨rfl, _, rfl, fun observation hmem => ?_⟩
    rcases List.mem_append.mp hmem with hmem | hmem <;>
    · obtain ⟨waiting, -, rfl⟩ := List.mem_map.mp hmem
      rfl
  · exact ⟨rfl, [], by simp, by simp⟩

end Showing

/-! ## One command -/

/-- The node installs a Snapshot only above what it has applied. -/
def ahead (config : Config) (id : NodeID) (c : Cluster) (command : Command) : Prop :=
  ∀ core event index term, stepped config c command = some (id, core, event) →
    installs core event = some (index, term) → core.lastApplied < index

section Commands

variable {config : Config} {guarded prompt : Prop} {σ : Ideal} {ρ : Rounds} {c c' : Cluster}
  {id : NodeID} {since : Nat} {p p' : Process} {input : Input}

theorem answered_movers {observed : List Observation}
    (h : input.Answered id since p p' observed) :
    ∀ observation ∈ observed, mover observation = none := by
  cases h <;> simp [mover]

theorem Prompted.advances {trace : List Observation} {disk : Disk} {files : List Snapshot.State}
    {event : Event} {waiter : Option Waiter} {progress : Progress} {state : LoopState}
    (h : Prompted config guarded prompt σ ρ trace id disk files p event waiter)
    (hahead : ∀ index term, installs p.core event = some (index, term) →
      p.core.lastApplied < index)
    (hstep : Runtime.step p.core disk event = .completed progress)
    (hcarried : carryOutAll config id files
      { process := { p with core := progress.core }, waiter := waiter } progress.emitted =
        some state) :
    Advances id p.core.lastApplied
        (entered id p.core event ++ (afterActions id (p.core.role = .leader) state).observed)
        (afterActions id (p.core.role = .leader) state).process.core.lastApplied ∧
      p.core.commitIndex ≤
        (afterActions id (p.core.role = .leader) state).process.core.commitIndex := by
  obtain ⟨σ₀, hbegins, hfinishes⟩ := h.achieves
  rw [hstep] at hfinishes
  obtain ⟨later, σ₂, σ₃, -, hpersists, hacts, hcompletes⟩ := hfinishes
  obtain ⟨shown, hobserved, hcore, -, hadvances⟩ := carryOutAll_advances hcarried
  obtain ⟨hcore', rest, hobserved', hrest⟩ := afterActions_shown id (p.core.role = .leader) state
  have hrises : Rises p.core.lastApplied progress.emitted := by
    by_cases hrestores : ∃ index term, .restoreSnapshot index term ∈ progress.emitted
    · obtain ⟨index, term, hmem⟩ := hrestores
      obtain ⟨hinstalls, -, -, hnone, honce⟩ := hcompletes.restores index term hmem
      refine .single hnone (fun index' term' hmem' => ?_) honce.le (hahead index term hinstalls)
      have hinstalls' := (hcompletes.restores index' term' hmem').1
      simpa [hinstalls, eq_comm] using hinstalls'
    · exact .none (fun index term hmem => hrestores ⟨index, term, hmem⟩) _
  have hnumbered : Numbered ((σ₃.log id).take progress.core.commitIndex) :=
    (hacts.tidy.log hacts.valid id).front (List.take_prefix _ _)
  rw [hcore', hcore, hobserved', hobserved, List.nil_append]
  refine ⟨.append (.still (entered_still id id _ _)) (.append
    (hadvances _ _ _ _ hnumbered hcompletes.walk hrises) (.still fun observation hmem => ?_)), ?_⟩
  · simp [hrest observation hmem]
  · have hbefore := h.serves.rest.commit_eq
    have hafter := hcompletes.rest.commit_eq
    have hmono := hcompletes.commit_mono
    simp only
    omega

theorem serve_movers {server : Server} {turn : Turn}
    (h : server.serve config id since input = some turn) {other : NodeID} (hother : id ≠ other) :
    ∀ observation ∈ turn.observed, mover observation ≠ some other := by
  obtain ⟨p, -, hserved⟩ := Server.serve_served h
  cases hserved with
  | answered prepared =>
      intro observation hmem
      simp [answered_movers (prepare_answered prepared) observation hmem]
  | ended => exact entered_still id other _ _
  | finished prepared stepped carried =>
      obtain ⟨shown, hobserved, -, hmovers, -⟩ := carryOutAll_advances carried
      obtain ⟨-, rest, hobserved', hrest⟩ := afterActions_shown id _ _
      intro observation hmem
      rcases List.mem_append.mp hmem with hmem | hmem
      · exact entered_still id other _ _ observation hmem
      · rw [hobserved', hobserved, List.nil_append] at hmem
        rcases List.mem_append.mp hmem with hmem | hmem
        · rcases hmovers observation hmem with hnone | hself
          · simp [hnone]
          · simp [hself, hother]
        · simp [hrest observation hmem]

theorem crashDuring_movers {server : Server} {turn : Turn} {calls kept : Nat}
    (h : server.crashDuring config id since input calls kept = some turn) (other : NodeID) :
    turn.server.process = none ∧
      ∀ observation ∈ turn.observed, mover observation ≠ some other := by
  unfold Server.crashDuring at h
  split at h
  · simp at h
  · split at h
    · cases h
      exact ⟨rfl, entered_still id other _ _⟩
    · simp at h

theorem Explains.served (h : Explains config guarded prompt σ ρ c) {selection : Selection}
    (hmeets : Meets guarded prompt c (.turn selection))
    (hahead : ahead config id c (.turn selection))
    (hselect : c.select selection = some (id, input)) {turn : Turn}
    (hserve : (c.servers id).serve config id c.trace.length input = some turn)
    (hp' : turn.server.process = some p') :
    ∃ p, (c.servers id).process = some p ∧
      Advances id p.core.lastApplied turn.observed p'.core.lastApplied ∧
      p.core.commitIndex ≤ p'.core.commitIndex := by
  obtain ⟨p, hprocess, hserved⟩ := Server.serve_served hserve
  refine ⟨p, hprocess, ?_⟩
  cases hserved with
  | answered prepared =>
      obtain rfl := Option.some.inj hp'
      have hanswered := prepare_answered prepared
      rw [hanswered.core_eq]
      exact ⟨.still fun observation hmem => by simp [answered_movers hanswered observation hmem],
        le_rfl⟩
  | ended => simp at hp'
  | finished prepared stepped carried =>
      obtain rfl := Option.some.inj hp'
      obtain ⟨ρ', -, hprompted⟩ :=
        (h.stands id).prepared hprocess (h.heard hselect hprocess hmeets.1) prepared
      rw [← (prepare_stepped prepared).core_eq]
      refine hprompted.advances (fun index term hinstalls => ?_) stepped carried
      refine hahead _ _ index term ?_ hinstalls
      simp [Cluster.stepped, hselect, hprocess, prepared]

theorem Upkeep.core_eq {command : Command} {server server' : Server}
    (h : Upkeep config id server command server') (hp' : server'.process = some p') :
    ∃ p, server.process = some p ∧
      (p'.core = p.core ∨ ∃ index term, p'.core = p.core.compactLog index term) := by
  have hcaptures : server.capture config id = some server' ∨
      server.advanceCapture = some server' ∨ server.abandonCapture = some server' →
      ∃ p, server.process = some p ∧
        (p'.core = p.core ∨ ∃ index term, p'.core = p.core.compactLog index term) := by
    intro hdone
    obtain ⟨p, core, capture, hp, hprocess, hcore⟩ := Server.capture_process hdone
    obtain rfl := Option.some.inj (hprocess.symm.trans hp')
    exact ⟨p, hp, hcore⟩
  cases h with
  | crash => simp at hp'
  | capture done => exact hcaptures (.inl done)
  | advanceCapture done => exact hcaptures (.inr (.inl done))
  | abandonCapture done => exact hcaptures (.inr (.inr done))
  | cancel done | cancelRead done =>
      obtain ⟨p, hp, rfl⟩ := Option.map_eq_some_iff.mp done
      obtain rfl := Option.some.inj hp'
      exact ⟨p, hp, .inl rfl⟩

theorem Upkeep.still {command : Command} {server server' : Server}
    (h : Upkeep config id server command server') (hp' : server'.process = some p') :
    ∃ p, server.process = some p ∧ p'.core.lastApplied = p.core.lastApplied ∧
      p'.core.commitIndex = p.core.commitIndex := by
  obtain ⟨p, hp, hcore | ⟨index, term, hcore⟩⟩ := h.core_eq hp'
  · exact ⟨p, hp, by rw [hcore], by rw [hcore]⟩
  · refine ⟨p, hp, ?_⟩
    rw [hcore, Node.compactLog]
    split <;> exact ⟨rfl, rfl⟩

theorem Explains.moved (h : Explains config guarded prompt σ ρ c) {command : Command}
    (hmeets : Meets guarded prompt c command) (hahead : ahead config id c command)
    (hrunning : command ≠ .start id) (hstep : c.step config command = some c')
    (hp' : (c'.servers id).process = some p') :
    ∃ p, (c.servers id).process = some p ∧
      Advances id p.core.lastApplied (c'.trace.drop c.trace.length) p'.core.lastApplied ∧
      p.core.commitIndex ≤ p'.core.commitIndex := by
  have hothers : ∀ other turn, other ≠ id → c' = c.after other turn →
      (∀ observation ∈ turn.observed, mover observation ≠ some id) →
      ∃ p, (c.servers id).process = some p ∧
        Advances id p.core.lastApplied (c'.trace.drop c.trace.length) p'.core.lastApplied ∧
        p.core.commitIndex ≤ p'.core.commitIndex := by
    rintro other turn hother rfl hmovers
    simp only [Cluster.after, Function.update_of_ne (Ne.symm hother)] at hp'
    refine ⟨p', hp', ?_, le_rfl⟩
    simpa [Cluster.after] using Advances.still hmovers
  cases step_does hstep with
  | @turn _ node _ turn hselect hserve =>
      by_cases hnode : node = id
      · subst hnode
        simpa [Cluster.after] using
          h.served hmeets hahead hselect hserve (by simpa [Cluster.after] using hp')
      · exact hothers node turn hnode rfl (serve_movers hserve hnode)
  | @crashDuring _ _ _ node _ turn hselect hcrash =>
      obtain ⟨hnone, hmovers⟩ := crashDuring_movers hcrash id
      by_cases hnode : node = id
      · subst hnode
        simp [Cluster.after, hnone] at hp'
      · exact hothers node turn hnode rfl hmovers
  | @start other turn hmember hstart =>
      have hother : other ≠ id := fun heq => hrunning (by rw [heq])
      refine hothers other turn hother rfl (fun observation hmem => ?_)
      obtain ⟨entry, rfl⟩ := start_shown hstart observation hmem
      simp [mover, hother]
  | @upkeep other _ server hkept =>
      obtain ⟨p, hp, happlied, hcommit⟩ : ∃ p, (c.servers id).process = some p ∧
          p'.core.lastApplied = p.core.lastApplied ∧
          p'.core.commitIndex = p.core.commitIndex := by
        by_cases hother : id = other
        · subst hother
          exact hkept.still (by simpa [Cluster.replace] using hp')
        · simp only [Cluster.replace, Function.update_of_ne hother] at hp'
          exact ⟨p', hp', rfl, rfl⟩
      refine ⟨p, hp, ?_, hcommit.ge⟩
      rw [happlied]
      exact Advances.still (by simp [Cluster.replace])

end Commands

/-! ## From a start to the next -/

section Incarnations

variable {config : Config} {guarded prompt : Prop} {σ : Ideal} {ρ : Rounds} {c c' : Cluster}
  {id : NodeID} {p p' : Process}

theorem step_trace {command : Command} (h : c.step config command = some c') :
    c.trace <+: c'.trace := by
  cases step_does h with
  | turn | crashDuring | start => exact List.prefix_append _ _
  | upkeep => exact List.prefix_rfl

theorem Run.trace {allowed : Cluster → Command → Prop} (h : Run config allowed c c') :
    c.trace <+: c'.trace := by
  induction h with
  | refl => exact List.prefix_rfl
  | next before permitted stepped ih => exact ih.trans (step_trace stepped)

theorem drop_trace {a b d : List Observation} (h : a <+: b) (h' : b <+: d) :
    d.drop a.length = b.drop a.length ++ d.drop b.length := by
  obtain ⟨shown, rfl⟩ := h
  obtain ⟨later, rfl⟩ := h'
  simp

/-- The commands of a node's incarnation, each Snapshot it installs ahead of what it applied. -/
def lasting (config : Config) (id : NodeID) (c : Cluster) (command : Command) : Prop :=
  command ≠ .start id ∧ ahead config id c command

theorem Run.moved (hexplains : Explains config False False σ ρ c)
    (h : Run config (lasting config id) c c') (hp' : (c'.servers id).process = some p') :
    ∃ p, (c.servers id).process = some p ∧
      Advances id p.core.lastApplied (c'.trace.drop c.trace.length) p'.core.lastApplied ∧
      p.core.commitIndex ≤ p'.core.commitIndex := by
  induction h generalizing p' with
  | refl => exact ⟨p', hp', by simp [Advances], le_rfl⟩
  | next before permitted stepped ih =>
      obtain ⟨σ₁, ρ₁, hexplains₁, -⟩ :=
        before.explained_from (fun c command _ => meets_nothing c command) hexplains
      obtain ⟨middle, hmiddle, hadvances, hcommit⟩ :=
        hexplains₁.moved (meets_nothing _ _) permitted.2 permitted.1 stepped hp'
      obtain ⟨p, hp, hadvances₁, hcommit₁⟩ := ih hmiddle
      refine ⟨p, hp, ?_, hcommit₁.trans hcommit⟩
      rw [drop_trace before.trace (step_trace stepped)]
      exact hadvances₁.append hadvances

theorem start_advances {server : Server} {log : List LogEntry} {turn : Turn}
    (hbacks : server.disk.Backs log) (hstart : server.start config id = some turn) :
    ∃ core found p, openRaftRuntime config id server = some (core, found) ∧
      turn.server.process = some p ∧
      Advances id core.lastApplied turn.observed p.core.lastApplied := by
  obtain ⟨core, found, sessions, hopen, hbegins, hopened, -, rfl⟩ := start_backed hbacks hstart
  refine ⟨core, found, _, hopen, rfl, ?_⟩
  have happlied : core.lastApplied = startIndex found := by rw [hopened.core_eq]
  have hadvances : Advances id (startIndex found) _ _ :=
    .entries (recoveredFrom_index hbacks.numbered hbacks.commit_le)
  rw [Nat.add_sub_cancel' hbegins.commit_le] at hadvances
  rw [happlied]
  exact hadvances

theorem Explains.started (h : Explains config guarded prompt σ ρ c)
    (hstep : c.step config (.start id) = some c') :
    ∃ core found p, openRaftRuntime config id (c.servers id) = some (core, found) ∧
      (c'.servers id).process = some p ∧
      Advances id core.lastApplied (c'.trace.drop c.trace.length) p.core.lastApplied := by
  simp only [Cluster.step] at hstep
  split at hstep
  · obtain ⟨turn, hstart, rfl⟩ := Option.map_eq_some_iff.mp hstep
    simpa [Cluster.after] using
      start_advances ((h.servers id).stored.backs h.valid h.tidy) hstart
  · simp at hstep

/--
From a start to the next, a node's applied position and commit index only grow,
no index is applied twice, and a Snapshot is restored only above what is applied.
-/
theorem application_monotone (config : Config) (allowed : Cluster → Command → Prop)
    (c₀ c₁ c c' : Cluster) (id : NodeID) (h : Run config allowed {} c₀)
    (hstart : c₀.step config (.start id) = some c₁) (hrun : Run config (lasting config id) c₁ c)
    (hrun' : Run config (lasting config id) c c') (p p' : Process)
    (hp : (c.servers id).process = some p) (hp' : (c'.servers id).process = some p') :
    p.core.lastApplied ≤ p'.core.lastApplied ∧ p.core.commitIndex ≤ p'.core.commitIndex ∧
    ∃ core found, openRaftRuntime config id (c₀.servers id) = some (core, found) ∧
      Advances id core.lastApplied (c'.trace.drop c₀.trace.length) p'.core.lastApplied ∧
      ((c'.trace.drop c₀.trace.length).filterMap (appliedBy id)).Pairwise (· < ·) := by
  obtain ⟨σ, ρ, hexplains⟩ : ∃ σ ρ, Explains config False False σ ρ c₀ :=
    h.explained fun c command _ => meets_nothing c command
  obtain ⟨σ₁, ρ₁, hcontinues⟩ := hexplains.step (meets_nothing _ _) hstart
  obtain ⟨σ₂, ρ₂, hexplains₂, -⟩ := hrun.explained_from
    (fun c command _ => meets_nothing c command) hcontinues.explains
  obtain ⟨q, hq, hadvances, hcommit⟩ := hrun'.moved hexplains₂ hp'
  obtain rfl := Option.some.inj (hp.symm.trans hq)
  obtain ⟨core, found, first, hopen, hfirst, hstarted⟩ := hexplains.started hstart
  obtain ⟨q, hq, hadvances₁, -⟩ := hrun.moved hcontinues.explains hp
  obtain rfl := Option.some.inj (hfirst.symm.trans hq)
  refine ⟨hadvances.le, hcommit, core, found, hopen, ?_⟩
  have hwhole : Advances id core.lastApplied (c'.trace.drop c₀.trace.length)
      p'.core.lastApplied := by
    rw [drop_trace (step_trace hstart) (hrun.trans hrun').trace,
      drop_trace hrun.trace hrun'.trace]
    exact hstarted.append (hadvances₁.append hadvances)
  exact ⟨hwhole, (List.pairwise_cons.mp hwhole.once).2⟩

def starts (id : NodeID) : Command → Bool
  | .start other => other == id
  | _ => false

theorem starts_iff {id : NodeID} {command : Command} :
    starts id command = true ↔ command = .start id := by
  cases command <;> simp [starts]

instance (command : Command) (id : NodeID) : Decidable (command = .start id) :=
  decidable_of_iff _ starts_iff

instance (config : Config) (id : NodeID) (c : Cluster) (command : Command) :
    Decidable (ahead config id c command) :=
  decidable_of_iff
    (((stepped config c command).all fun found =>
      (installs found.2.1 found.2.2).all fun position =>
        decide (found.1 = id → found.2.1.lastApplied < position.1)) = true) (by
    simp only [ahead, Option.all_eq_true, decide_eq_true_eq]
    refine ⟨fun h core event index term hstepped hinstalls =>
      h (id, core, event) hstepped (index, term) hinstalls rfl, ?_⟩
    rintro h ⟨_, core, event⟩ hstepped ⟨index, term⟩ hinstalls rfl
    exact h core event index term hstepped hinstalls)

instance (config : Config) (id : NodeID) (c : Cluster) (command : Command) :
    Decidable (lasting config id c command) :=
  inferInstanceAs (Decidable (_ ∧ _))

theorem application_monotone_written : ∃ c₀ : Cluster, ∃ c₁ c p, Run threeNodes genuine {} c₀ ∧
    c₀.step threeNodes (.start nodeA) = some c₁ ∧ Run threeNodes (lasting threeNodes nodeA) c₁ c ∧
    (c.servers nodeA).process = some p ∧ p.core.lastApplied = 3 ∧
    ((c.trace.drop c₀.trace.length).filterMap (appliedBy nodeA)).Pairwise (· < ·) := by
  obtain ⟨c₁, hstart, c, hfollow, p, hp, happlied⟩ : ∃ c₁ ∈ step threeNodes {} (.start nodeA),
      ∃ c ∈ follow threeNodes (lasting threeNodes nodeA) c₁ (compacting.drop 1),
        ∃ p ∈ (c.servers nodeA).process, p.core.lastApplied = 3 := by decide +kernel
  have hrun := Run.of_follow hfollow
  obtain ⟨-, -, core, found, -, -, honce⟩ := application_monotone threeNodes genuine {} c₁ c c nodeA
    (.refl _) hstart hrun (.refl c) p p hp hp
  exact ⟨{}, c₁, c, p, .refl _, hstart, hrun, hp, happlied, honce⟩

/--
Node A takes a Snapshot of two entries while a third is committed.  The third
entry reaches node C in a request that begins at the start of the log, and the
Snapshot is sent to it meanwhile.
-/
def lagging : List Command :=
  electing ++
    [.turn (.propose nodeA 1 (.session ⟨1, .openSession, sessionNumbered 7⟩)),
      deliver 6, deliver 8, deliver 9, deliver 10, .capture nodeA,
      .turn (.propose nodeA 2 (.set ⟨2, sessionNumbered 7, 1, [107], [1]⟩)),
      deliver 11, deliver 12, deliver 13, deliver 14,
      .turn (.heartbeatTimeout nodeA), deliver 17, deliver 18, .advanceCapture nodeA,
      .advanceCapture nodeA, .advanceCapture nodeA, .turn (.heartbeatTimeout nodeA), deliver 19]

/-- A delayed Snapshot takes a node back behind what it has applied. -/
theorem application_rolled_back : ∃ c₀ c₁ c c' p p', Run threeNodes genuine {} c₀ ∧
    c₀.step threeNodes (.start nodeC) = some c₁ ∧
    Run threeNodes (fun c command => genuine c command ∧ ¬ command = .start nodeC) c₁ c ∧
    genuine c (deliver 21) ∧ c.step threeNodes (deliver 21) = some c' ∧
    (c.servers nodeC).process = some p ∧ (c'.servers nodeC).process = some p' ∧
    p'.core.lastApplied < p.core.lastApplied := by
  obtain ⟨c₀, hrun, c₁, hstart, c, hfollow, hgenuine, c', hstep, p, hp, p', hp', hlt⟩ :
      ∃ c₀, Run threeNodes genuine {} c₀ ∧ ∃ c₁ ∈ c₀.step threeNodes (.start nodeC),
        ∃ c ∈ follow threeNodes (fun c command => genuine c command ∧ ¬ command = .start nodeC) c₁
          (lagging.drop 3), genuine c (deliver 21) ∧ ∃ c' ∈ c.step threeNodes (deliver 21),
        ∃ p ∈ (c.servers nodeC).process, ∃ p' ∈ (c'.servers nodeC).process,
          p'.core.lastApplied < p.core.lastApplied :=
    Run.exists_of_follow (lagging.take 2) (by decide +kernel)
  exact ⟨c₀, c₁, c, c', p, p', hrun, hstart, .of_follow hfollow, hgenuine, hstep, hp, hp', hlt⟩

end Incarnations

end QuorumKV.Cluster
