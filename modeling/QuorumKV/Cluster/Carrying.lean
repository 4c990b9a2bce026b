import QuorumKV.Cluster.Progress
import QuorumKV.Runtime.Restart

/-!
# Carrying out the actions of a step

The loop hands messages to the transport, applies entries to the session
machine, answers the clients that waited for them, and confirms reads.  Along
the walk of a step's actions the session machine stands for the committed log,
and a client is answered by the entry it asked for.
-/

namespace QuorumKV.Cluster

open Raft QuorumKV.Runtime Session Foundation

/-! ## Session machines along a log -/

section Machines

variable {config : Config} {log : List LogEntry}

theorem machine_take_succ {position : Nat} {entry : LogEntry} (h : log[position]? = some entry) :
    config.machine (log.take (position + 1)) =
      ((config.machine (log.take position)).apply entry).1 :=
  machineAt_succ h

theorem restore_image {file : Snapshot.State} {sessions restored : SessionMachine}
    (himage : Image config log file) (hlimit : sessions.limit = config.activeSessionLimit)
    (hrestored : sessions.restore (some file) = .ok restored) :
    restored = config.machine (log.take file.includedIndex) := by
  rw [himage.2, SessionMachine.restore_snapshot _ _ _
    (hlimit.trans (config.machine_limit _).symm) (config.machine_active _)] at hrestored
  split at hrestored
  · simp at hrestored
  · exact (Except.ok.inj hrestored).symm

/-- A cached answer of success repeats a mutation of the log. -/
theorem carries_of_cached {session : SessionID} {sequence : UInt64}
    (hfalse : ((config.machine log).evaluateMutation session sequence).2 = false)
    (hsucceeded : ((config.machine log).evaluateMutation session sequence).1.failure = .succeeded) :
    ∃ position ≤ log.length, Carries log position (.mutation session sequence) := by
  obtain ⟨hlast, hne⟩ := SessionMachine.evaluateMutation_cached hfalse hsucceeded
  have hrecorded : (((newSessionMachine config.activeSessionLimit).applyAll log).recordOf
      session).lastSequence ≠ 0 := fun hzero => hne (hlast.trans hzero)
  obtain ⟨entry, hmem, hmutation, hsession, hsequence⟩ :=
    SessionMachine.mutation_of_lastSequence hrecorded
  obtain ⟨offset, hoffset, hentry⟩ := List.getElem_of_mem hmem
  refine ⟨offset + 1, hoffset, Nat.succ_pos _, entry, ?_, hmutation, hsession,
    hsequence.trans hlast.symm⟩
  rw [Nat.add_sub_cancel, List.getElem?_eq_getElem hoffset, hentry]

theorem Answers.carries {count : Nat} {request : Request} {result : ProposalResult}
    (h : Answers config log count request result) (hsucceeds : Succeeds result) :
    ∃ position ≤ count, Carries log position request := by
  rcases h with ⟨position, entry, hlt, hentry, hmatches, -⟩ | ⟨session, sequence, rfl, heval⟩
  · exact ⟨position + 1, hlt, Nat.succ_pos _, entry, hentry, hmatches⟩
  · obtain ⟨position, hle, hcarries⟩ := carries_of_cached (congrArg Prod.snd heval)
      (by rw [heval]; exact hsucceeds.2)
    exact ⟨position, hle.trans (List.length_take_le _ _), hcarries.mono (List.take_prefix _ _)⟩

end Machines

/-! ## Waiting clients -/

section Waiting

variable {config : Config} {guarded : Prop} {σ σ' : Ideal} {id : NodeID}
  {files : List Snapshot.State} {disk : Disk} {trace : List Observation}
  {T applied index since : Nat} {request : Request}

theorem Waits.front (h : Waits σ id T applied index request) (hfront : σ.log id <+: σ'.log id) :
    Waits σ' id T applied index request :=
  ⟨h.carries.mono hfront, (termAt_front hfront h.carries.le_length).trans h.own, h.later⟩

theorem Waits.matches (h : Waits σ id T applied index request) {entry : LogEntry}
    (hentry : (σ.log id)[index - 1]? = some entry) : Matches entry request := by
  obtain ⟨-, other, hother, hmatches⟩ := h.carries
  obtain rfl := Option.some.inj (hother.symm.trans hentry)
  exact hmatches

theorem Stored.own_committed (h : Stored guarded σ id files disk)
    (hvalid : σ.Valid LogEntry.term config.Quorum) (hguarded : guarded)
    (hown : termAt LogEntry.term (σ.log id) index = σ.term id) (hpos : 0 < index)
    (hle : index ≤ disk.commitIndex) : index ≤ σ.lcommit (σ.term id) := by
  obtain ⟨U, hU, hknown⟩ := h.known hguarded
  have hinside : index ≤ ((σ.log id).take disk.commitIndex).length := by
    rw [List.length_take]
    exact le_min hle (hle.trans h.commit_le)
  have hlength := hinside.trans hknown.length_le
  have hterm : termAt LogEntry.term (σ.decided U) index = σ.term id := by
    rw [termAt_front hknown hinside, termAt_take hle, hown]
  obtain ⟨e, he, heq⟩ := termAt_mem (τ := LogEntry.term) hpos hlength
  have hbound := (hvalid.inv.llog_sound U).2 e (List.mem_of_mem_take he)
  obtain rfl : U = σ.term id := by omega
  rwa [hvalid.inv.decided_length] at hlength

/-- A position committed in the term it was proposed in is behind all that was acknowledged. -/
theorem Awaits.covers (h : Awaits config σ trace T index since)
    (hvalid : σ.Valid LogEntry.term config.Quorum) (hpos : 0 < index)
    (hcommitted : index ≤ σ.lcommit T) : Covers σ (trace.take since) (index - 1) := by
  rcases h with hcovers | ⟨Q, hQ, hleft⟩
  · exact hcovers
  · obtain ⟨-, -, Q', hQ', hacks⟩ := hvalid.inv.commit_acks T (hpos.trans_le hcommitted)
    obtain ⟨f, hf, hf'⟩ := config.quorum_inter Q Q' hQ hQ'
    have := (hleft f hf).2
    have := hacks f hf'
    omega

/-- A new proposal of a Leader is behind all that was acknowledged, or comes too late. -/
theorem awaits_proposal (hvalid : σ.Valid LogEntry.term config.Quorum)
    (hlead : σ.lead T = some id) (hholds : σ.log id = σ.llog T)
    (hcovers : Covers σ trace σ.chosen.length) :
    Awaits config σ trace T ((σ.log id).length + 1) trace.length := by
  obtain ⟨V, hV⟩ := hvalid.agreed.attained
  rcases Nat.lt_or_ge T V with hlt | hge
  · rcases Nat.eq_zero_or_pos (σ.lcommit V) with hzero | hpos
    · refine .inl ?_
      rw [List.take_length]
      exact hcovers.le (by simp [hV, Consensus.decided, hzero])
    · obtain ⟨-, -, Q, hQ, hacks⟩ := hvalid.inv.commit_acks V hpos
      refine .inr ⟨Q, hQ, fun f hf => ⟨?_, ?_⟩⟩
      · exact hlt.trans_le ((hvalid.inv.ack_le f V).2 (hpos.trans_le (hacks f hf)))
      · rw [hholds]
        exact Nat.lt_succ_of_le (hvalid.inv.ack_le f T).1
  · refine .inl ?_
    rw [List.take_length, Nat.add_sub_cancel, hholds]
    refine hcovers.le ?_
    rw [hV]
    exact (hvalid.inv.decided_llog config.quorum_inter hge (by simp [hlead])).length_le

end Waiting

/-! ## The loop on its way -/

/--
The loop after some actions of a step from the core `n` to the core `n'`, its
process having been `p`.  The session machine has come to `applied`.
-/
structure Carried (config : Config) (guarded prompt : Prop) (σ : Ideal) (ρ : Rounds)
    (trace : List Observation) (id : NodeID) (n n' : Node) (p : Process) (applied : Nat)
    (state : LoopState) : Prop where
  core : state.process.core = n'
  capture : state.process.capture = p.capture
  incoming : state.process.incoming = p.incoming
  ready : ∀ file, state.process.readySnapshot = some file → p.readySnapshot = some file
  readsBegun : state.process.readsBegun = p.readsBegun
  idle : n.role ≠ .leader →
    state.process.pending = [] ∧ ∀ session, state.process.inFlightMutations session = none
  arrived : ∀ index waiter, (index, waiter) ∈ state.process.pending →
    waiter.since ≤ trace.length
  sessions : guarded → state.process.sessions = config.machine (σ.chosen.take applied)
  inside : guarded → applied ≤ σ.chosen.length
  waiting : guarded → n'.role = .leader → ∀ index waiter,
    (index, waiter) ∈ state.process.pending → Waits σ id n'.term applied index waiter.request
  awaiting : guarded → prompt → n'.role = .leader → ∀ index waiter,
    (index, waiter) ∈ state.process.pending → Awaits config σ trace n'.term index waiter.since
  inFlight : guarded → n'.role = .leader → ∀ session sequence index,
    state.process.inFlightMutations session = some (sequence, index) →
    Waits σ id n'.term applied index (.mutation session sequence)
  sent : ∀ packet ∈ state.sent, Truthful config guarded σ ρ packet.dest packet.message
  observed : guarded → ∀ observation ∈ state.observed,
    TrueObservation config prompt σ trace observation
  covered : guarded → ∀ node waiter result, .answered node waiter result ∈ state.observed →
    node = id ∧ (result.rejected = false →
      Answers config σ.chosen n'.lastApplied waiter.request result)
  elected : ∀ node term, .becameLeader node term ∉ state.observed

namespace Carried

variable {config : Config} {guarded prompt : Prop} {σ : Ideal} {ρ : Rounds}
  {trace : List Observation} {id : NodeID} {n n' : Node} {p : Process} {applied : Nat}
  {state : LoopState}

theorem send (h : Carried config guarded prompt σ ρ trace id n n' p applied state)
    {dest : NodeID} {message : Message} (htrue : Truthful config guarded σ ρ dest message) :
    Carried config guarded prompt σ ρ trace id n n' p applied (state.send dest message) :=
  { h with
    sent := by
      intro packet hmem
      rcases List.mem_append.mp hmem with hmem | hmem
      · exact h.sent packet hmem
      · rw [List.mem_singleton.mp hmem]
        exact htrue }

theorem observe (h : Carried config guarded prompt σ ρ trace id n n' p applied state)
    {shown : List Observation}
    (hobserved : guarded → ∀ observation ∈ shown,
      TrueObservation config prompt σ trace observation)
    (hcovered : guarded → ∀ node waiter result, .answered node waiter result ∈ shown →
      node = id ∧ (result.rejected = false →
        Answers config σ.chosen n'.lastApplied waiter.request result))
    (helected : ∀ node term, .becameLeader node term ∉ shown) :
    Carried config guarded prompt σ ρ trace id n n' p applied (state.observe shown) :=
  { h with
    observed := fun hguarded observation hmem => by
      rcases List.mem_append.mp hmem with hmem | hmem
      · exact h.observed hguarded observation hmem
      · exact hobserved hguarded observation hmem
    covered := fun hguarded node waiter result hmem => by
      rcases List.mem_append.mp hmem with hmem | hmem
      · exact h.covered hguarded node waiter result hmem
      · exact hcovered hguarded node waiter result hmem
    elected := fun node term hmem => by
      rcases List.mem_append.mp hmem with hmem | hmem
      · exact h.elected node term hmem
      · exact helected node term hmem }

theorem applyEntry (h : Carried config guarded prompt σ ρ trace id n n' p applied state)
    {entry : LogEntry} (hlogged : (σ.log id)[applied]? = some entry)
    (hchosen : guarded → σ.chosen[applied]? = some entry) (hindex : entry.index = applied + 1)
    (hlast : applied + 1 ≤ n'.lastApplied)
    (hleader : guarded → n.role = .leader → n'.role = .leader)
    (hcovers : guarded → prompt → n'.role = .leader → ∀ since,
      termAt LogEntry.term (σ.log id) (applied + 1) = n'.term →
      Awaits config σ trace n'.term (applied + 1) since →
      Covers σ (trace.take since) applied) :
    Carried config guarded prompt σ ρ trace id n n' p (applied + 1)
      (Runtime.applyEntry id state entry) := by
  have hrole : guarded → ∀ waiting ∈ state.process.pending, n'.role = .leader := by
    intro hguarded waiting hmem
    by_contra hrole
    have hfollower : n.role ≠ .leader := fun hcontra => hrole (hleader hguarded hcontra)
    simp [(h.idle hfollower).1] at hmem
  have hmatches : guarded → ∀ waiter, (applied + 1, waiter) ∈ state.process.pending →
      Matches entry waiter.request := fun hguarded waiter hmem =>
    (h.waiting hguarded (hrole hguarded _ hmem) _ _ hmem).matches hlogged
  have hkept : ∀ waiting ∈ state.process.pending.filter (fun waiting => waiting.1 != entry.index),
      waiting ∈ state.process.pending ∧ waiting.1 ≠ applied + 1 := by
    intro waiting hmem
    rw [List.mem_filter, bne_iff_ne, hindex] at hmem
    exact hmem
  unfold Runtime.applyEntry
  dsimp only
  refine Carried.observe ?_ (fun hguarded observation hmem => ?_)
    (fun hguarded node waiter result hmem => ?_) (fun node term hmem => ?_)
  · refine
      { h with
        core := h.core
        idle := fun hfollower => ?_
        arrived := fun index waiter hmem => h.arrived index waiter (hkept _ hmem).1
        sessions := fun hguarded => ?_
        inside := fun hguarded => (List.getElem?_eq_some_iff.mp (hchosen hguarded)).1
        waiting := fun hguarded hrole index waiter hmem => ?_
        awaiting := fun hguarded hprompt hrole index waiter hmem =>
          h.awaiting hguarded hprompt hrole index waiter (hkept _ hmem).1
        inFlight := fun hguarded hrole session sequence index hflight => ?_ }
    · obtain ⟨hpending, hflight⟩ := h.idle hfollower
      refine ⟨by simp [hpending], fun session => ?_⟩
      dsimp only
      split
      · by_cases hsame : session = entry.sessionID
        · simp [hsame]
        · simp [hsame, hflight]
      · exact hflight session
    · rw [machine_take_succ (hchosen hguarded), ← h.sessions hguarded]
    · obtain ⟨hmem, hother⟩ := hkept _ hmem
      obtain ⟨hcarries, hown, hlater⟩ := h.waiting hguarded hrole index waiter hmem
      exact ⟨hcarries, hown, by omega⟩
    · dsimp only at hflight
      have hold : state.process.inFlightMutations session = some (sequence, index) := by
        split at hflight
        · by_cases hsame : session = entry.sessionID
          · simp [hsame] at hflight
          · simpa [hsame] using hflight
        · exact hflight
      have hwaits := h.inFlight hguarded hrole session sequence index hold
      refine ⟨hwaits.carries, hwaits.own, ?_⟩
      rcases Nat.lt_or_eq_of_le (Nat.succ_le_of_lt hwaits.later) with hlt | heq
      · exact hlt
      · -- The mutation at this position is the one in flight, so it was taken out.
        subst heq
        obtain ⟨hmutation, hsession, hsequence⟩ := hwaits.matches hlogged
        subst hsession
        rw [if_pos ⟨hmutation, by simp [hold, hsequence]⟩] at hflight
        simp at hflight
  · rcases List.mem_cons.mp hmem with rfl | hmem
    · refine ⟨by omega, ?_⟩
      rw [hindex, Nat.add_sub_cancel]
      exact hchosen hguarded
    · obtain ⟨⟨index, waiter⟩, hwaiting, rfl⟩ := List.mem_map.mp hmem
      rw [List.mem_filter, beq_iff_eq, hindex] at hwaiting
      obtain ⟨hpending, rfl⟩ := hwaiting
      intro hprompt session sequence hrequest _ hfailure
      have hleads := hrole hguarded _ hpending
      have hmatch := hmatches hguarded waiter hpending
      rw [hrequest] at hmatch
      obtain ⟨hmutation, hsession, hsequence⟩ := hmatch
      have hposition := (List.getElem?_eq_some_iff.mp (hchosen hguarded)).1
      refine ⟨h.arrived _ _ hpending, applied, hposition.le,
        hcovers hguarded hprompt hleads _ (h.waiting hguarded hleads _ _ hpending).own
          (h.awaiting hguarded hprompt hleads _ _ hpending), ?_⟩
      rw [← h.sessions hguarded, ← hsession, ← hsequence,
        SessionMachine.apply_failed hmutation hfailure]
  · rcases List.mem_cons.mp hmem with hcase | hmem
    · simp at hcase
    · obtain ⟨⟨index, other⟩, hwaiting, heq⟩ := List.mem_map.mp hmem
      simp only [Observation.answered.injEq] at heq
      obtain ⟨rfl, rfl, rfl⟩ := heq
      rw [List.mem_filter, beq_iff_eq, hindex] at hwaiting
      obtain ⟨hpending, rfl⟩ := hwaiting
      refine ⟨rfl, fun _ => .inl ⟨applied, entry, hlast, hchosen hguarded,
        hmatches hguarded other hpending, ?_⟩⟩
      rw [h.sessions hguarded]
  · rcases List.mem_cons.mp hmem with hcase | hmem
    · simp at hcase
    · obtain ⟨waiting, -, heq⟩ := List.mem_map.mp hmem
      simp at heq

theorem restoreSnapshot (h : Carried config guarded prompt σ ρ trace id n n' p applied state)
    (hready : guarded → ∀ file, p.readySnapshot = some file → Image config σ.chosen file)
    (hrole : n'.role ≠ .leader) {index term : Nat} {state' : LoopState}
    (hrestored : Runtime.restoreSnapshot id state index term = some state') :
    Carried config guarded prompt σ ρ trace id n n' p index state' := by
  unfold Runtime.restoreSnapshot at hrestored
  cases hfile : state.process.readySnapshot with
  | none => simp [hfile] at hrestored
  | some file =>
      simp only [hfile] at hrestored
      split at hrestored
      · simp at hrestored
      next hsame =>
        rw [not_or, not_not, not_not] at hsame
        obtain ⟨rfl, rfl⟩ := hsame
        cases hmachine : state.process.sessions.restore (some file) with
        | error e => simp [hmachine] at hrestored
        | ok sessions =>
            simp only [hmachine, Option.some.injEq] at hrestored
            subst hrestored
            have himage : guarded → Image config σ.chosen file := fun hguarded =>
              hready hguarded file (h.ready file hfile)
            have hsessions : guarded →
                sessions = config.machine (σ.chosen.take file.includedIndex) := by
              intro hguarded
              refine restore_image (himage hguarded) ?_ hmachine
              rw [h.sessions hguarded, config.machine_limit]
            refine Carried.observe ?_ (fun hguarded observation hmem => ?_) (by simp) (by simp)
            · exact
                { h with
                  core := h.core
                  ready := by simp
                  sessions := hsessions
                  inside := fun hguarded => (himage hguarded).1
                  waiting := fun _ hleader => absurd hleader hrole
                  awaiting := fun _ _ hleader => absurd hleader hrole
                  inFlight := fun _ hleader => absurd hleader hrole }
            · rw [List.mem_singleton.mp hmem]
              exact ⟨(himage hguarded).1, (congrArg Snapshot.State.includedTerm (himage hguarded).2 :),
                hsessions hguarded⟩

theorem acceptProposal (h : Carried config guarded prompt σ ρ trace id n n' p applied state)
    {index : Nat} (hrole : n.role = .leader)
    (haccepts : ∀ waiter, state.waiter = some waiter → waiter.since ≤ trace.length ∧
      (guarded → Waits σ id n'.term applied index waiter.request ∧
        (prompt → Awaits config σ trace n'.term index waiter.since))) :
    Carried config guarded prompt σ ρ trace id n n' p applied
      (Runtime.acceptProposal state index) := by
  unfold Runtime.acceptProposal
  cases hwaiter : state.waiter with
  | none => exact h
  | some waiter =>
      obtain ⟨hsince, hwaits⟩ := haccepts waiter hwaiter
      have hcases : ∀ i w, (i, w) ∈ state.process.pending ++ [(index, waiter)] →
          (i, w) ∈ state.process.pending ∨ (i = index ∧ w = waiter) := by
        intro i w hmem
        simpa using hmem
      dsimp only
      exact
        { h with
          core := h.core
          idle := fun hfollower => absurd hrole hfollower
          arrived := fun i w hmem => by
            rcases hcases i w hmem with hold | ⟨rfl, rfl⟩
            · exact h.arrived i w hold
            · exact hsince
          waiting := fun hguarded hleader i w hmem => by
            rcases hcases i w hmem with hold | ⟨rfl, rfl⟩
            · exact h.waiting hguarded hleader i w hold
            · exact (hwaits hguarded).1
          awaiting := fun hguarded hprompt hleader i w hmem => by
            rcases hcases i w hmem with hold | ⟨rfl, rfl⟩
            · exact h.awaiting hguarded hprompt hleader i w hold
            · exact (hwaits hguarded).2 hprompt
          inFlight := fun hguarded hleader session sequence i hflight => by
            have hrequest := (hwaits hguarded).1
            cases hmutation : waiter.request with
            | session type other =>
                simp only [hmutation, Request.mutation?] at hflight
                exact h.inFlight hguarded hleader session sequence i hflight
            | mutation other number =>
                rw [hmutation] at hrequest
                simp only [hmutation, Request.mutation?] at hflight
                by_cases hsame : session = other
                · subst hsame
                  simp only [Function.update_self, Option.some.injEq, Prod.mk.injEq] at hflight
                  obtain ⟨rfl, rfl⟩ := hflight
                  exact hrequest
                · rw [Function.update_of_ne hsame] at hflight
                  exact h.inFlight hguarded hleader session sequence i hflight }

theorem awaitReads (h : Carried config guarded prompt σ ρ trace id n n' p applied state)
    (reads : List (ReadID × Bytes)) :
    Carried config guarded prompt σ ρ trace id n n' p applied
      { state with process := { state.process with pendingReads := reads } } :=
  { h with core := h.core }

theorem confirmRead (h : Carried config guarded prompt σ ρ trace id n n' p applied state)
    {readID : ReadID}
    (hbegun : guarded → ∀ since, (readID, since) ∈ p.readsBegun →
      since ≤ trace.length ∧ Covers σ (trace.take since) applied) :
    Carried config guarded prompt σ ρ trace id n n' p applied
      (Runtime.confirmRead id state readID) := by
  unfold Runtime.confirmRead
  dsimp only
  refine (h.awaitReads _).observe (fun hguarded observation hmem => ?_)
    (fun hguarded node waiter result hmem => ?_) (fun node term hmem => ?_)
  · rcases List.mem_append.mp hmem with hmem | hmem
    · obtain ⟨⟨other, since⟩, hfound, rfl⟩ := List.mem_map.mp hmem
      rw [List.mem_filter, beq_iff_eq, h.readsBegun] at hfound
      obtain ⟨hread, rfl⟩ := hfound
      obtain ⟨hsince, hcovers⟩ := hbegun hguarded since hread
      exact ⟨hsince, applied, h.inside hguarded, h.sessions hguarded, hcovers⟩
    · obtain ⟨waiting, -, rfl⟩ := List.mem_map.mp hmem
      trivial
  · rcases List.mem_append.mp hmem with hmem | hmem <;>
    · obtain ⟨other, -, heq⟩ := List.mem_map.mp hmem
      simp at heq
  · rcases List.mem_append.mp hmem with hmem | hmem <;>
    · obtain ⟨other, -, heq⟩ := List.mem_map.mp hmem
      simp at heq

theorem rejectRead (h : Carried config guarded prompt σ ρ trace id n n' p applied state)
    (readID : ReadID) :
    Carried config guarded prompt σ ρ trace id n n' p applied
      (Runtime.rejectRead id state readID) :=
  (h.awaitReads _).observe (by simp [TrueObservation]) (by simp) (by simp)

theorem sendChunk (h : Carried config guarded prompt σ ρ trace id n n' p applied state)
    {files : List Snapshot.State} (howned : ∀ file ∈ files, Owned config guarded σ id file)
    {dest : NodeID} {term requestID index snapshotTerm offset : Nat}
    (htrue : TrueSnapshot guarded σ dest id term requestID index snapshotTerm) {chunk : Chunk}
    (hchunk : snapshotChunk config id files term requestID index snapshotTerm offset =
      some chunk) :
    Carried config guarded prompt σ ρ trace id n n' p applied
      (state.send dest (.installSnapshot chunk)) := by
  unfold snapshotChunk at hchunk
  split at hchunk
  · simp at hchunk
  next file hfound =>
    have hmem := List.mem_of_find?_eq_some hfound
    have hsame := List.find?_some hfound
    rw [Bool.and_eq_true, beq_iff_eq, beq_iff_eq] at hsame
    obtain ⟨rfl, rfl⟩ := hsame
    dsimp only at hchunk
    split at hchunk
    · simp at hchunk
    · obtain rfl := (Option.some.inj hchunk).symm
      exact h.send ⟨htrue, howned file hmem⟩

theorem afterActions (h : Carried config guarded prompt σ ρ trace id n n' p applied state) :
    Carried config guarded prompt σ ρ trace id n n' p applied
      (Runtime.afterActions id (n.role = .leader) state) := by
  unfold Runtime.afterActions
  split
  · dsimp only
    refine Carried.observe ?_ (fun _ observation hmem => ?_) (fun _ node waiter result hmem => ?_)
      (fun node term hmem => ?_)
    · exact
        { h with
          core := h.core
          idle := fun _ => ⟨rfl, fun _ => rfl⟩
          arrived := by simp
          waiting := by simp
          awaiting := by simp
          inFlight := by simp }
    · rcases List.mem_append.mp hmem with hmem | hmem
      · obtain ⟨waiting, -, rfl⟩ := List.mem_map.mp hmem
        simp [TrueObservation]
      · obtain ⟨waiting, -, rfl⟩ := List.mem_map.mp hmem
        trivial
    · rcases List.mem_append.mp hmem with hmem | hmem
      · obtain ⟨waiting, -, heq⟩ := List.mem_map.mp hmem
        simp only [Observation.answered.injEq] at heq
        obtain ⟨rfl, -, rfl⟩ := heq
        exact ⟨rfl, by simp⟩
      · obtain ⟨waiting, -, heq⟩ := List.mem_map.mp hmem
        simp at heq
    · rcases List.mem_append.mp hmem with hmem | hmem <;>
      · obtain ⟨waiting, -, heq⟩ := List.mem_map.mp hmem
        simp at heq
  · exact h

theorem afterActions_idle (h : Carried config guarded prompt σ ρ trace id n n' p applied state)
    (hrole : n'.role ≠ .leader) :
    (Runtime.afterActions id (n.role = .leader) state).process.pending = [] ∧
      ∀ session, (Runtime.afterActions id (n.role = .leader) state).process.inFlightMutations
        session = none := by
  unfold Runtime.afterActions
  split
  · exact ⟨rfl, fun _ => rfl⟩
  next hstays =>
    refine h.idle fun hleader => hstays ⟨by simpa using hleader, ?_⟩
    rw [h.core]
    exact hrole

end Carried

/-! ## All actions of a step -/

/-- What the loop relies on while it carries out the actions of a step. -/
structure Reliable (config : Config) (guarded prompt : Prop) (σ : Ideal) (ρ : Rounds)
    (trace : List Observation) (id : NodeID) (files : List Snapshot.State) (n n' : Node)
    (p : Process) (waiter : Option Waiter) (emitted : List Action) : Prop where
  numbered : Numbered (σ.log id)
  committed : guarded → (σ.log id).take n'.commitIndex = σ.chosen.take n'.commitIndex
  owned : ∀ file ∈ files, Owned config guarded σ id file
  ready : guarded → ∀ file, p.readySnapshot = some file → Image config σ.chosen file
  sends : ∀ action ∈ emitted, Announces config guarded σ ρ id action
  applies : guarded → n.role = .leader → ∀ entry, .applyEntry entry ∈ emitted →
    n'.role = .leader
  covers : guarded → n'.role = .leader → ∀ index since, 0 < index → index ≤ n'.commitIndex →
    termAt LogEntry.term (σ.log id) index = n'.term → Awaits config σ trace n'.term index since →
    Covers σ (trace.take since) (index - 1)
  restores : ∀ index term, .restoreSnapshot index term ∈ emitted →
    n'.role ≠ .leader ∧ ∀ entry, .applyEntry entry ∉ emitted
  accepts : ∀ proposalID index, .proposalAccepted proposalID index ∈ emitted →
    n.role = .leader ∧ n'.role = .leader ∧ ∀ w, waiter = some w → w.since ≤ trace.length ∧
      (guarded → Waits σ id n'.term n'.lastApplied index w.request ∧
        (prompt → Awaits config σ trace n'.term index w.since))
  confirms : guarded → ∀ readID applied, Confirms ρ n readID applied →
    ∀ since, (readID, since) ∈ p.readsBegun →
      since ≤ trace.length ∧ Covers σ (trace.take since) applied

namespace Reliable

variable {config : Config} {guarded prompt : Prop} {σ : Ideal} {ρ : Rounds}
  {trace : List Observation} {id : NodeID} {files : List Snapshot.State} {n n' : Node}
  {p : Process} {waiter : Option Waiter} {emitted : List Action} {applied : Nat}
  {state state' : LoopState}

theorem carryOut (hreliable : Reliable config guarded prompt σ ρ trace id files n n' p waiter emitted)
    {action : Action} {actions : List Action}
    (hsuffix : ∀ other ∈ action :: actions, other ∈ emitted)
    (h : Carried config guarded prompt σ ρ trace id n n' p applied state)
    (hwaiter : state.waiter = waiter)
    (hwalk : Walk ((σ.log id).take n'.commitIndex)
      (fun readID applied => guarded → Confirms ρ n readID applied) applied (action :: actions)
      n'.lastApplied)
    (hcarried : Runtime.carryOut config id files state action = some state') :
    ∃ applied', Carried config guarded prompt σ ρ trace id n n' p applied' state' ∧
      state'.waiter = waiter ∧
      Walk ((σ.log id).take n'.commitIndex)
        (fun readID applied => guarded → Confirms ρ n readID applied) applied' actions
        n'.lastApplied := by
  have hmem := hsuffix action (by simp)
  have hsends := hreliable.sends action hmem
  have hle : (∀ index term, .restoreSnapshot index term ∉ emitted) →
      applied ≤ n'.lastApplied := fun hnone =>
    hwalk.le fun index term hrestore => hnone index term (hsuffix _ hrestore)
  cases action with
  | applyEntry entry =>
      obtain ⟨hentry, hrest⟩ := hwalk
      cases hcarried
      have hnone : ∀ index term, .restoreSnapshot index term ∉ emitted :=
        fun index term hrestore => (hreliable.restores index term hrestore).2 entry hmem
      have hinside := (List.getElem?_eq_some_iff.mp hentry).1
      rw [List.length_take] at hinside
      have hlogged : (σ.log id)[applied]? = some entry := by
        rwa [List.getElem?_take_of_lt (by omega)] at hentry
      have hchosen : guarded → σ.chosen[applied]? = some entry := by
        intro hguarded
        rwa [hreliable.committed hguarded, List.getElem?_take_of_lt (by omega)] at hentry
      have hlast := hrest.le fun index term hrestore =>
        hnone index term (hsuffix _ (by simp [hrestore]))
      refine ⟨applied + 1, h.applyEntry hlogged hchosen (hreliable.numbered _ _ hlogged) hlast
        (fun hguarded hrole => hreliable.applies hguarded hrole entry hmem)
        (fun hguarded _ hrole since => ?_), hwaiter, hrest⟩
      exact hreliable.covers hguarded hrole (applied + 1) since (Nat.succ_pos _) (by omega)
  | restoreSnapshot index term =>
      obtain ⟨-, -, hrest⟩ := hwalk
      refine ⟨index, h.restoreSnapshot hreliable.ready (hreliable.restores _ _ hmem).1 hcarried, ?_,
        hrest⟩
      rw [← hwaiter]
      simp only [Runtime.carryOut, Runtime.restoreSnapshot] at hcarried
      split at hcarried
      · simp at hcarried
      · split at hcarried
        · simp at hcarried
        · split at hcarried
          · simp at hcarried
          · rw [← Option.some.inj hcarried]
            rfl
  | readConfirmed readID index =>
      obtain ⟨hconfirms, hrest⟩ := hwalk
      cases hcarried
      exact ⟨applied, h.confirmRead fun hguarded since hbegun =>
        hreliable.confirms hguarded readID applied (hconfirms hguarded) since hbegun, hwaiter, hrest⟩
  | readRejected readID leaderID =>
      cases hcarried
      exact ⟨applied, h.rejectRead readID, hwaiter, hwalk⟩
  | proposalAccepted proposalID index =>
      obtain ⟨hrole, hleader, haccepts⟩ := hreliable.accepts proposalID index hmem
      cases hcarried
      have happlied := hle fun index term hrestore =>
        (hreliable.restores index term hrestore).1 hleader
      refine ⟨applied, h.acceptProposal hrole (fun w hw => ?_), ?_, hwalk⟩
      · obtain ⟨hsince, hwaits⟩ := haccepts w (hwaiter ▸ hw)
        refine ⟨hsince, fun hguarded => ?_⟩
        obtain ⟨⟨hcarries, hown, hlater⟩, hawaits⟩ := hwaits hguarded
        exact ⟨⟨hcarries, hown, happlied.trans_lt hlater⟩, hawaits⟩
      · rw [← hwaiter, Runtime.acceptProposal]
        split <;> rfl
  | proposalRejected proposalID leaderID =>
      simp only [Runtime.carryOut] at hcarried
      cases hw : state.waiter with
      | none =>
          rw [hw] at hcarried
          cases hcarried
          exact ⟨applied, h, hwaiter, hwalk⟩
      | some w =>
          rw [hw] at hcarried
          cases hcarried
          refine ⟨applied, h.observe (by simp [TrueObservation]) (fun _ node other result hshown => ?_)
            (by simp), hwaiter, hwalk⟩
          obtain ⟨rfl, rfl, rfl⟩ : node = id ∧ other = w ∧
              result = { leaderID := leaderID, rejected := true } := by simpa using hshown
          exact ⟨rfl, by simp⟩
  | sendInstallSnapshot dest term requestID index snapshotTerm offset =>
      simp only [Runtime.carryOut] at hcarried
      split at hcarried
      · cases hcarried
        exact ⟨applied, h, hwaiter, hwalk⟩
      next chunk hchunk =>
        cases hcarried
        exact ⟨applied, h.sendChunk hreliable.owned hsends hchunk, hwaiter, hwalk⟩
  | sendPreVoteRequest dest message | sendPreVoteResponse dest message
  | sendVoteRequest dest message | sendVoteResponse dest message
  | sendAppendEntries dest message | sendAppendEntriesResponse dest message
  | sendInstallSnapshotResponse dest message =>
      cases hcarried
      exact ⟨applied, h.send hsends, hwaiter, hwalk⟩
  | _ =>
      cases hcarried
      exact ⟨applied, h, hwaiter, hwalk⟩

theorem carryOutAll
    (hreliable : Reliable config guarded prompt σ ρ trace id files n n' p waiter emitted)
    {actions : List Action} (hsuffix : ∀ action ∈ actions, action ∈ emitted)
    (h : Carried config guarded prompt σ ρ trace id n n' p applied state)
    (hwaiter : state.waiter = waiter)
    (hwalk : Walk ((σ.log id).take n'.commitIndex)
      (fun readID applied => guarded → Confirms ρ n readID applied) applied actions n'.lastApplied)
    (hcarried : Runtime.carryOutAll config id files state actions = some state') :
    Carried config guarded prompt σ ρ trace id n n' p n'.lastApplied state' := by
  induction actions generalizing applied state with
  | nil =>
      cases hcarried
      obtain rfl : applied = n'.lastApplied := hwalk
      exact h
  | cons action actions ih =>
      simp only [Runtime.carryOutAll] at hcarried
      split at hcarried
      · simp at hcarried
      next next hnext =>
        obtain ⟨applied', hcarried', hwaiter', hwalk'⟩ :=
          hreliable.carryOut hsuffix h hwaiter hwalk hnext
        exact ih (fun other hother => hsuffix other (by simp [hother])) hcarried' hwaiter' hwalk'
          hcarried

end Reliable

end QuorumKV.Cluster
