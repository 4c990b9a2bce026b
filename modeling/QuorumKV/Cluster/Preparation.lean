import QuorumKV.Cluster.Serving

/-!
# Before the step of a turn

The loop stages a Snapshot chunk, joins a mutation to the same one in flight or
answers it from the session machine, and notes a read.  A read that a Leader
takes in begins a round: it finds the nodes that have not left the Leader's term
and all that is committed.
-/

namespace QuorumKV.Cluster

open Raft QuorumKV.Runtime Session Foundation

section Staging

variable {config : Config} {guarded prompt : Prop} {σ : Ideal} {ρ : Rounds}
  {trace : List Observation} {id : NodeID} {disk : Disk} {files : List Snapshot.State}
  {p : Process} {chunk : Chunk}

theorem Image.identity {log : List LogEntry} {file : Snapshot.State} (h : Image config log file)
    (identity : Snapshot.Identity) : Image config log { file with identity := identity } := by
  exact ⟨h.1, (congrArg (fun other : Snapshot.State => { other with identity := identity }) h.2 :)⟩

structure Staged (config : Config) (id : NodeID) (p : Process) (chunk : Chunk)
    (result : Process × List Snapshot.State × InstallSnapshot) : Prop where
  process : result.1 = { p with
    incoming := result.1.incoming
    readySnapshot := result.1.readySnapshot }
  incoming : ∀ receiving, result.1.incoming = some receiving →
    receiving.file = chunk.file ∨
      ∃ old, p.incoming = some old ∧ receiving.file = old.file
  saved : ∀ file ∈ result.2.1,
    file = { chunk.file with identity := snapshotIdentity config id }
  ready : ∀ file, result.1.readySnapshot = some file →
    p.readySnapshot = some file ∨ file ∈ result.2.1
  request : ∃ success nextOffset, result.2.2 = chunk.request success nextOffset ∧
    (success = true → nextOffset ≤ config.fileLength chunk.file) ∧
    (success = true → chunk.done = true →
      { chunk.file with identity := snapshotIdentity config id } ∈ result.2.1)

theorem stageChunk_staged (config : Config) (id : NodeID) (p : Process) (chunk : Chunk) :
    Staged config id p chunk (stageChunk config id p chunk) := by
  have hreceiving : ∀ receiving,
      (if chunk.offset = 0 then some ⟨chunk.file, 0⟩ else p.incoming) = some receiving →
      receiving.file = chunk.file ∨ ∃ old, p.incoming = some old ∧ receiving.file = old.file := by
    intro receiving hsome
    split at hsome
    · exact .inl (by rw [← Option.some.inj hsome])
    · exact .inr ⟨receiving, hsome, rfl⟩
  unfold stageChunk
  dsimp only
  split
  · exact ⟨rfl, by simp, by simp, fun _ hfile => .inl hfile, false, 0, rfl, by simp, by simp⟩
  next receiving hincoming =>
    split
    · refine ⟨rfl, ?_, by simp, fun _ hfile => .inl hfile, false, 0, rfl, by simp, by simp⟩
      rintro _ ⟨⟩
      exact hreceiving receiving hincoming
    next hchecked =>
      have hle : receiving.staged + chunk.size ≤ config.fileLength chunk.file := by
        rw [not_or, not_or, not_not, not_not, Nat.not_lt] at hchecked
        rw [← hchecked.2.1]
        exact hchecked.2.2
      split
      next hpart =>
        refine ⟨rfl, ?_, by simp, fun _ hfile => .inl hfile, true, _, rfl, fun _ => hle,
          by simp [hpart]⟩
        rintro _ ⟨⟩
        exact .inl rfl
      · split
        · exact ⟨rfl, by simp, by simp, by simp, true, _, rfl, fun _ => hle, by simp⟩
        · exact ⟨rfl, by simp, by simp, fun _ hfile => .inl hfile, false, 0, rfl, by simp, by simp⟩

theorem Serves.staged (h : Serves config guarded prompt σ ρ trace id disk files p)
    (himage : guarded → Image config σ.chosen chunk.file)
    {result : Process × List Snapshot.State × InstallSnapshot}
    (hstaged : Staged config id p chunk result) :
    Serves config guarded prompt σ ρ trace id disk (result.2.1 ++ files) result.1 := by
  have hfiles : ∀ file ∈ files, file ∈ result.2.1 ++ files := fun file hfile =>
    List.mem_append_right _ hfile
  rw [hstaged.process]
  exact
    { h with
      rest := h.rest.more hfiles
      capture := fun capture hcapture => by
        obtain ⟨hposition, hsaved, howned⟩ := h.capture capture hcapture
        exact ⟨hposition, fun hphase => hfiles _ (hsaved hphase), howned⟩
      incoming := fun hguarded receiving hreceiving => by
        rcases hstaged.incoming receiving hreceiving with hfile | ⟨old, hold, hfile⟩
        · rw [hfile]
          exact himage hguarded
        · rw [hfile]
          exact h.incoming hguarded old hold
      ready := fun file hready => by
        rcases hstaged.ready file hready with hold | hsaved
        · exact hfiles file (h.ready file hold)
        · exact List.mem_append_left _ hsaved }

theorem Staged.owned {result : Process × List Snapshot.State × InstallSnapshot}
    (h : Staged config id p chunk result)
    (himage : guarded → Image config σ.chosen chunk.file)
    (howned : ∀ file ∈ files, Owned config guarded σ id file) :
    ∀ file ∈ result.2.1 ++ files, Owned config guarded σ id file := by
  intro file hfile
  rcases List.mem_append.mp hfile with hsaved | hold
  · rw [h.saved file hsaved]
    exact ⟨rfl, fun hguarded => (himage hguarded).identity _⟩
  · exact howned file hold

end Staging

/-! ## Reads -/

section Reading

variable {config : Config} {guarded prompt : Prop} {σ : Ideal} {ρ : Rounds}
  {trace : List Observation} {id : NodeID} {disk : Disk} {files : List Snapshot.State}
  {p : Process} {readID : ReadID}

def newRound (σ : Ideal) (T : Nat) : Round where
  reached := {f | σ.term f ≤ T}
  floor := σ.chosen.length

def beginRound (σ : Ideal) (ρ : Rounds) (T : Nat) (readID : ReadID) : Rounds :=
  fun U other => if U = T ∧ other = readID then some (newRound σ T) else ρ U other

theorem beginRound_same (σ : Ideal) (ρ : Rounds) (T : Nat) (readID : ReadID) :
    beginRound σ ρ T readID T readID = some (newRound σ T) :=
  if_pos ⟨rfl, rfl⟩

theorem beginRound_other {T U : Nat} {other : ReadID} (h : ¬ (U = T ∧ other = readID)) :
    beginRound σ ρ T readID U other = ρ U other :=
  if_neg h

theorem grows_beginRound {T : Nat} (hlead : σ.lead T = some id) (hnew : ρ T readID = none) :
    Rounds.Grows σ id ρ (beginRound σ ρ T readID) where
  keeps U other round hround := by
    rw [beginRound_other, hround]
    rintro ⟨rfl, rfl⟩
    simp [hnew] at hround
  others U hU := by
    funext other
    refine beginRound_other ?_
    rintro ⟨rfl, -⟩
    exact hU hlead

theorem TrueRounds.beginRound {T : Nat} (h : TrueRounds config σ ρ)
    (hvalid : σ.Valid LogEntry.term config.Quorum) (hled : σ.lead T ≠ none)
    (hpos : 0 < σ.lcommit T) : TrueRounds config σ (beginRound σ ρ T readID) := by
  intro U other round hround
  by_cases hsame : U = T ∧ other = readID
  · obtain ⟨rfl, rfl⟩ := hsame
    rw [beginRound_same] at hround
    obtain rfl := Option.some.inj hround
    refine ⟨hled, fun f hle => hle, le_rfl, ?_⟩
    rintro ⟨Q, hQ, hreached⟩
    exact hvalid.chosen_le_lcommit config.quorum_inter hled hpos hQ hreached
  · rw [beginRound_other hsame] at hround
    exact h U other round hround

theorem Serves.noted (h : Serves config guarded prompt σ ρ trace id disk files p) {ρ' : Rounds}
    (key : Bytes) (hfresh : readID ∉ p.readsBegun.map Prod.fst)
    (hkeeps : ∀ T other round, ρ T other = some round → ρ' T other = some round)
    (hothers : ∀ T other, other ≠ readID → ρ' T other = ρ T other) :
    Serves config guarded prompt σ ρ' trace id disk files
      { p with
        pendingReads := p.pendingReads ++ [(readID, key)]
        readsBegun := p.readsBegun ++ [(readID, trace.length)] } := by
  have hold : ∀ read ∈ p.core.pendingReads, read.id ≠ readID := by
    rintro read hread rfl
    exact hfresh (h.begun read hread)
  exact
    { h with
      replicates := fun hguarded hrole =>
        { h.replicates hguarded hrole with
          reads := fun read hread => by
            obtain ⟨hpositive, hmembers, round, hround, hreached⟩ :=
              (h.replicates hguarded hrole).reads read hread
            exact ⟨hpositive, hmembers, round, hkeeps _ _ _ hround, hreached⟩ }
      begun := fun read hread => by
        rw [List.map_append]
        exact List.mem_append_left _ (h.begun read hread)
      asked := fun hguarded hrole other hround => by
        rw [List.map_append]
        by_cases hother : other = readID
        · exact List.mem_append_right _ (by simp [hother])
        · dsimp only at hround
          rw [hothers _ _ hother] at hround
          exact List.mem_append_left _ (h.asked hguarded hrole other hround)
      stamped := fun other since hmem => by
        rcases List.mem_append.mp hmem with hmem | hmem
        · exact h.stamped other since hmem
        · obtain ⟨-, rfl⟩ : other = readID ∧ since = trace.length := by simpa using hmem
          exact le_rfl
      since := fun hguarded read hread since hmem round hround => by
        dsimp only at hread hround
        rw [hothers _ _ (hold read hread)] at hround
        rcases List.mem_append.mp hmem with hmem | hmem
        · exact h.since hguarded read hread since hmem round hround
        · obtain ⟨hsame, -⟩ : read.id = readID ∧ since = trace.length := by simpa using hmem
          exact absurd hsame (hold read hread) }

end Reading

/-! ## What is prepared -/

structure Stands (config : Config) (guarded prompt : Prop) (σ : Ideal) (ρ : Rounds)
    (trace : List Observation) (id : NodeID) (server : Server) : Prop where
  valid : σ.Valid LogEntry.term config.Quorum
  tidy : Tidy config σ
  rounds : guarded → TrueRounds config σ ρ
  acknowledged : guarded → Covers σ trace σ.chosen.length
  runs : Runs config guarded prompt σ ρ trace id server

def Heard (config : Config) (guarded : Prop) (σ : Ideal) (ρ : Rounds) (id : NodeID) (n : Node) :
    Input → Prop
  | .receive message => Truthful config guarded σ ρ id message ∧
      (guarded → ∀ response, message = .appendEntriesResponse response →
        ¬ staleRejection n response)
  | _ => True

namespace Stands

variable {config : Config} {guarded prompt : Prop} {σ : Ideal} {ρ : Rounds}
  {trace : List Observation} {id : NodeID} {server : Server} {p p' : Process} {input : Input}
  {saved : List Snapshot.State} {event : Event} {waiter : Option Waiter}

theorem prompted (h : Stands config guarded prompt σ ρ trace id server)
    (hprocess : server.process = some p)
    (hgrounded : Grounded config guarded σ ρ id server.files p.core event)
    (hbegun : Begun guarded σ ρ trace p event) (hasks : Asks trace event waiter) :
    Prompted config guarded prompt σ ρ trace id server.disk ([] ++ server.files) p event waiter where
  valid := h.valid
  tidy := h.tidy
  rounds := h.rounds
  acknowledged := h.acknowledged
  stored := h.runs.stored
  owned := h.runs.owned
  serves := h.runs.serves p hprocess
  grounded := hgrounded
  begun := hbegun
  asks := hasks

theorem asks_none (trace : List Observation) (event : Event) : Asks trace event none := by
  simp [Asks]

theorem asks_proposal (trace : List Observation) (client : Nat) (proposal : Proposal) :
    Asks trace proposal.event (some ⟨client, proposal.request, trace.length⟩) := by
  rintro _ ⟨⟩
  cases proposal <;> exact ⟨rfl, rfl⟩

theorem chunk (h : Stands config guarded prompt σ ρ trace id server)
    (hprocess : server.process = some p) {chunk : Chunk}
    (htrue : Truthful config guarded σ ρ id (.installSnapshot chunk)) :
    Prompted config guarded prompt σ ρ trace id server.disk
      ((stageChunk config id p chunk).2.1 ++ server.files) (stageChunk config id p chunk).1
      (.installSnapshot (stageChunk config id p chunk).2.2) none := by
  obtain ⟨hsnapshot, howned⟩ := htrue
  have hstaged := stageChunk_staged config id p chunk
  have hfiles : ∀ file ∈ server.files,
      file ∈ (stageChunk config id p chunk).2.1 ++ server.files :=
    fun file hfile => List.mem_append_right _ hfile
  obtain ⟨success, nextOffset, hrequest, hle, hfiled⟩ := hstaged.request
  exact
    { valid := h.valid
      tidy := h.tidy
      rounds := h.rounds
      acknowledged := h.acknowledged
      stored := h.runs.stored.more hfiles
      owned := hstaged.owned howned.2 h.runs.owned
      serves := (h.runs.serves p hprocess).staged howned.2 hstaged
      grounded := by
        rw [hrequest]
        refine ⟨⟨hsnapshot, fun hsuccess => ⟨_, howned, rfl, hle hsuccess⟩⟩,
          fun hsuccess hdone => ?_⟩
        exact ⟨_, List.mem_append_left _ (hfiled hsuccess hdone), rfl, rfl⟩
      begun := trivial
      asks := asks_none _ _ }

theorem received (h : Stands config guarded prompt σ ρ trace id server)
    (hprocess : server.process = some p) {message : Message}
    (hheard : Heard config guarded σ ρ id p.core (.receive message))
    (hprepare : message.prepare config id p = .stepped p' saved event waiter) :
    Prompted config guarded prompt σ ρ trace id server.disk (saved ++ server.files) p' event
      waiter := by
  obtain ⟨htrue, hgenuine⟩ := hheard
  cases message <;> obtain ⟨rfl, rfl, rfl, rfl⟩ := Prepared.stepped.inj hprepare.symm
  case preVoteRequest r => exact h.prompted hprocess trivial trivial (asks_none _ _)
  case preVoteResponse r => exact h.prompted hprocess trivial trivial (asks_none _ _)
  case voteRequest r => exact h.prompted hprocess htrue trivial (asks_none _ _)
  case voteResponse r => exact h.prompted hprocess htrue trivial (asks_none _ _)
  case appendEntries r => exact h.prompted hprocess htrue trivial (asks_none _ _)
  case appendEntriesResponse r =>
    exact h.prompted hprocess ⟨htrue, fun hguarded => hgenuine hguarded r rfl⟩ trivial
      (asks_none _ _)
  case installSnapshot chunk => exact h.chunk hprocess htrue
  case installSnapshotResponse r => exact h.prompted hprocess htrue trivial (asks_none _ _)

theorem read (h : Stands config guarded prompt σ ρ trace id server)
    (hprocess : server.process = some p) {readID : ReadID} (key : Bytes) (hpositive : readID ≠ 0)
    (hfresh : readID ∉ p.readsBegun.map Prod.fst) :
    ∃ ρ', Rounds.Grows σ id ρ ρ' ∧
      Prompted config guarded prompt σ ρ' trace id server.disk ([] ++ server.files)
        { p with
          pendingReads := p.pendingReads ++ [(readID, key)]
          readsBegun := p.readsBegun ++ [(readID, trace.length)] } (.confirmRead readID) none := by
  have hserves := h.runs.serves p hprocess
  have hsince : ∀ since, (readID, since) ∈ p.readsBegun ++ [(readID, trace.length)] →
      since = trace.length := by
    intro since hmem
    rcases List.mem_append.mp hmem with hmem | hmem
    · exact absurd (List.mem_map.mpr ⟨_, hmem, rfl⟩) hfresh
    · simpa using hmem
  have hnew : guarded → p.core.role = .leader → ρ p.core.term readID = none := by
    intro hguarded hrole
    by_contra hround
    exact hfresh (hserves.asked hguarded hrole readID hround)
  by_cases hbegins : guarded ∧ p.core.role = .leader ∧ p.core.readReady = true
  · obtain ⟨hguarded, hrole, hready⟩ := hbegins
    have hlead := (hserves.leads hrole).leads
    have hgrows := grows_beginRound hlead (hnew hguarded hrole)
    refine ⟨beginRound σ ρ p.core.term readID, hgrows, ?_⟩
    exact
      { valid := h.valid
        tidy := h.tidy
        rounds := fun _ => (h.rounds hguarded).beginRound h.valid (by simp [hlead])
          ((hserves.replicates hguarded hrole).ready hready)
        acknowledged := h.acknowledged
        stored := h.runs.stored
        owned := h.runs.owned
        serves := hserves.noted key hfresh hgrows.keeps
          fun T other hother => beginRound_other fun hsame => hother hsame.2
        grounded := fun _ _ _ =>
          ⟨hpositive, _, beginRound_same _ _ _ _, hserves.rest.term_eq.symm.le⟩
        begun := by
          refine ⟨by simp, fun _ _ since hmem round hround => ?_⟩
          dsimp only at hround
          rw [beginRound_same] at hround
          obtain rfl := Option.some.inj hround
          rw [hsince since hmem, List.take_length]
          exact h.acknowledged hguarded
        asks := asks_none _ _ }
  · refine ⟨ρ, Rounds.Grows.refl σ id ρ, ?_⟩
    exact
      { valid := h.valid
        tidy := h.tidy
        rounds := h.rounds
        acknowledged := h.acknowledged
        stored := h.runs.stored
        owned := h.runs.owned
        serves := hserves.noted key hfresh (fun _ _ _ hround => hround) fun _ _ _ => rfl
        grounded := fun hguarded hrole hready => absurd ⟨hguarded, hrole, hready⟩ hbegins
        begun := by
          refine ⟨by simp, fun hguarded hrole since _ round hround => ?_⟩
          rw [hnew hguarded hrole] at hround
          simp at hround
        asks := asks_none _ _ }

theorem prepared (h : Stands config guarded prompt σ ρ trace id server)
    (hprocess : server.process = some p) (hheard : Heard config guarded σ ρ id p.core input)
    (hprepare : prepare config id trace.length p input = some (.stepped p' saved event waiter)) :
    ∃ ρ', Rounds.Grows σ id ρ ρ' ∧
      Prompted config guarded prompt σ ρ' trace id server.disk (saved ++ server.files) p' event
        waiter := by
  have hrefl := Rounds.Grows.refl σ id ρ
  cases prepare_stepped hprepare with
  | @propose client proposal =>
      refine ⟨ρ, hrefl, ?_⟩
      refine h.prompted hprocess ?_ ?_ (asks_proposal trace client proposal) <;>
        cases proposal <;> trivial
  | read positive fresh => exact h.read hprocess _ positive fresh
  | receive prepared => exact ⟨ρ, hrefl, h.received hprocess hheard prepared⟩
  | _ => exact ⟨ρ, hrefl, h.prompted hprocess trivial trivial (asks_none _ _)⟩

theorem joined (h : Stands config guarded prompt σ ρ trace id server)
    (hprocess : server.process = some p) {session : SessionID} {sequence : UInt64} {index : Nat}
    (hflight : p.inFlightMutations session = some (sequence, index)) {waiter : Waiter}
    (hrequest : waiter.request = .mutation session sequence) (hsince : waiter.since = trace.length)
    (hprompt : guarded → prompt → Covers σ trace p.core.lastApplied) :
    Serves config guarded prompt σ ρ trace id server.disk server.files
      { p with pending := p.pending ++ [(index, waiter)] } := by
  have hserves := h.runs.serves p hprocess
  have hcases : ∀ i w, (i, w) ∈ p.pending ++ [(index, waiter)] →
      (i, w) ∈ p.pending ∨ (i = index ∧ w = waiter) := by
    intro i w hmem
    simpa using hmem
  have hwaits : guarded → Waits σ id p.core.term p.core.lastApplied index waiter.request :=
    fun hguarded => hrequest ▸ hserves.inFlight hguarded session sequence index hflight
  exact
    { hserves with
      idle := fun hrole => by simp [(hserves.idle hrole).2.2] at hflight
      waiting := fun hguarded i w hmem => by
        rcases hcases i w hmem with hold | ⟨rfl, rfl⟩
        · exact hserves.waiting hguarded i w hold
        · exact hwaits hguarded
      awaiting := fun hguarded hp i w hmem => by
        rcases hcases i w hmem with hold | ⟨rfl, rfl⟩
        · exact hserves.awaiting hguarded hp i w hold
        · refine .inl ?_
          rw [hsince, List.take_length]
          exact (hprompt hguarded hp).le (Nat.le_sub_one_of_lt (hwaits hguarded).later)
      arrived := fun i w hmem => by
        rcases hcases i w hmem with hold | ⟨rfl, rfl⟩
        · exact hserves.arrived i w hold
        · exact hsince.le }

theorem runs_answered (h : Stands config guarded prompt σ ρ trace id server)
    (hserves : Serves config guarded prompt σ ρ trace id server.disk server.files p)
    (shown : List Observation) :
    Runs config guarded prompt σ ρ (trace ++ shown) id { server with process := some p } := by
  refine ⟨h.runs.stored, h.runs.owned, ?_⟩
  rintro _ ⟨⟩
  exact hserves.longer (Acts.refl h.valid h.tidy) shown

theorem evaluated (h : Stands config guarded prompt σ ρ trace id server)
    (hprocess : server.process = some p) {session : SessionID} {sequence : UInt64}
    (hfalse : (p.sessions.evaluateMutation session sequence).2 = false) {waiter : Waiter}
    (hrequest : waiter.request = .mutation session sequence) (hsince : waiter.since = trace.length)
    (hprompt : guarded → prompt → Covers σ trace p.core.lastApplied) :
    Leaves config guarded prompt σ ρ trace id
      { server := { server with process := some p }
        observed := [.answered id waiter (p.sessions.evaluateMutation session sequence).1] } := by
  have hserves := h.runs.serves p hprocess
  refine
    { runs := h.runs_answered hserves _
      sent := by simp
      elected := by simp
      observed := fun hguarded observation hmem => ?_
      covered := fun hguarded node other result hmem => ?_ }
  · rw [List.mem_singleton.mp hmem]
    intro hp other number hother _ hfailure
    obtain ⟨rfl, rfl⟩ : session = other ∧ sequence = number := by simpa [hrequest] using hother
    refine ⟨hsince.le, p.core.lastApplied,
      hserves.applied_le_chosen h.valid h.runs.stored hguarded, ?_, ?_⟩
    · rw [hsince, List.take_length]
      exact hprompt hguarded hp
    · rw [hserves.sessions hguarded]
  · obtain ⟨rfl, rfl, rfl⟩ : node = id ∧ other = waiter ∧
        result = (p.sessions.evaluateMutation session sequence).1 := by simpa using hmem
    refine ⟨rfl, fun _ => ⟨p, rfl, .inr ⟨session, sequence, hrequest, ?_⟩⟩⟩
    rw [hserves.sessions hguarded] at hfalse ⊢
    exact Prod.ext rfl hfalse

theorem answered (h : Stands config guarded prompt σ ρ trace id server)
    (hprocess : server.process = some p) {observed : List Observation}
    (hprepare : prepare config id trace.length p input = some (.answered p' observed))
    (hprompt : guarded → prompt → Covers σ trace p.core.lastApplied) :
    Leaves config guarded prompt σ ρ trace id
      { server := { server with process := some p' }, observed := observed } := by
  cases prepare_answered hprepare with
  | joined hrequest hflight =>
      exact
        { runs := h.runs_answered (h.joined hprocess hflight hrequest rfl hprompt) []
          sent := by simp
          elected := by simp
          observed := by simp
          covered := by simp }
  | evaluated hrequest hdecided => exact h.evaluated hprocess hdecided hrequest rfl hprompt

end Stands

end QuorumKV.Cluster
