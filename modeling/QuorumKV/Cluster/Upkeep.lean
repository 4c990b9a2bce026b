import QuorumKV.Cluster.Preparation

/-!
# Local Snapshots, crashes, and restarts

What a server does beside the turns of its loop.  A local Snapshot is captured
from the applied state, saved, and used to compact first the WAL and then the
core.  A crash leaves the disk and the files, and a restart rebuilds the core and
the session machine from them.
-/

namespace QuorumKV.Cluster

open Raft QuorumKV.Runtime Session Foundation

section Standing

variable {config : Config} {guarded prompt : Prop} {σ : Ideal} {ρ : Rounds}
  {trace : List Observation} {id : NodeID} {server server' : Server} {p : Process}

theorem Leaves.quiet (h : Runs config guarded prompt σ ρ trace id server) :
    Leaves config guarded prompt σ ρ trace id { server := server } where
  runs := by
    rw [List.append_nil]
    exact h
  sent := by simp
  elected := by simp
  observed := by simp
  covered := by simp

theorem Runs.with_process (h : Runs config guarded prompt σ ρ trace id server)
    (hserves : Serves config guarded prompt σ ρ trace id server.disk server.files p) :
    Runs config guarded prompt σ ρ trace id { server with process := some p } := by
  refine ⟨h.stored, h.owned, ?_⟩
  rintro _ ⟨⟩
  exact hserves

theorem Runs.crash (h : Runs config guarded prompt σ ρ trace id server) :
    Runs config guarded prompt σ ρ trace id { server with process := none } :=
  ⟨h.stored, h.owned, by simp⟩

/-! ## Giving up -/

theorem Runs.abandonCapture (h : Runs config guarded prompt σ ρ trace id server)
    (hstep : server.abandonCapture = some server') :
    Runs config guarded prompt σ ρ trace id server' := by
  obtain ⟨p, hp, rfl⟩ := Option.map_eq_some_iff.mp hstep
  exact h.with_process { h.serves p hp with capture := by simp }

theorem Runs.cancel (h : Runs config guarded prompt σ ρ trace id server) {client : Nat}
    (hstep : server.cancel client = some server') :
    Runs config guarded prompt σ ρ trace id server' := by
  obtain ⟨p, hp, rfl⟩ := Option.map_eq_some_iff.mp hstep
  have hserves := h.serves p hp
  refine h.with_process
    { hserves with
      idle := fun hrole => ?_
      waiting := fun hguarded index waiter hmem =>
        hserves.waiting hguarded index waiter (List.mem_of_mem_filter hmem)
      awaiting := fun hguarded hprompt index waiter hmem =>
        hserves.awaiting hguarded hprompt index waiter (List.mem_of_mem_filter hmem)
      arrived := fun index waiter hmem =>
        hserves.arrived index waiter (List.mem_of_mem_filter hmem) }
  obtain ⟨hreads, hpending, hflight⟩ := hserves.idle hrole
  exact ⟨hreads, by simp [hpending], hflight⟩

theorem Runs.cancelRead (h : Runs config guarded prompt σ ρ trace id server) {readID : ReadID}
    (hstep : server.cancelRead readID = some server') :
    Runs config guarded prompt σ ρ trace id server' := by
  obtain ⟨p, hp, rfl⟩ := Option.map_eq_some_iff.mp hstep
  have hserves := h.serves p hp
  exact h.with_process { hserves with idle := hserves.idle }

/-! ## Local Snapshots -/

theorem AtRest.lastAppliedTerm {files : List Snapshot.State} {disk : Disk} {n : Node}
    (h : AtRest config σ id files disk n) :
    n.lastAppliedTerm = termAt LogEntry.term (σ.log id) n.lastApplied := by
  rw [Node.lastAppliedTerm]
  split
  · exact h.holds.termAt_eq h.base_le
  next hzero =>
    rw [Nat.eq_zero_of_not_pos hzero]
    rfl

theorem Stands.capture (h : Stands config guarded prompt σ ρ trace id server)
    (hstep : server.capture config id = some server') :
    Runs config guarded prompt σ ρ trace id server' ∧
      server.disk.commitIndex ≤ server'.disk.commitIndex := by
  unfold Server.capture at hstep
  split at hstep
  · simp at hstep
  next p hp =>
    split at hstep
    · simp at hstep
    · cases hstep
      have hserves := h.runs.serves p hp
      have hcommit := hserves.rest.applied_le.trans hserves.rest.commit_eq.le
      refine ⟨h.runs.with_process { hserves with capture := ?_ }, le_rfl⟩
      rintro _ ⟨⟩
      refine ⟨.inr ⟨hcommit, hserves.rest.lastAppliedTerm⟩, fun hphase => absurd rfl hphase, rfl,
        fun hguarded => ?_⟩
      have hinside := hserves.applied_le_chosen h.valid h.runs.stored hguarded
      refine ⟨hinside, ?_⟩
      dsimp only [SessionMachine.snapshot]
      have hterm : termAt LogEntry.term (σ.log id) p.core.lastApplied =
          termAt LogEntry.term σ.chosen p.core.lastApplied := by
        rw [← termAt_take hcommit, h.runs.stored.commit_chosen h.valid.agreed hguarded,
          termAt_take hcommit]
      rw [hserves.rest.lastAppliedTerm, hterm, hserves.sessions hguarded]

theorem Stored.compacted {files : List Snapshot.State} {disk disk' : Disk} {index term : Nat}
    (h : Stored guarded σ id files disk)
    (hcompact : Disk.compact disk index term = some disk') (hfiled : Filed files index term)
    (hposition : index ≤ disk.snapshotIndex ∨
      (index ≤ disk.commitIndex ∧ term = termAt LogEntry.term (σ.log id) index)) :
    Stored guarded σ id files disk' ∧ index ≤ disk'.snapshotIndex ∧
      disk'.commitIndex = disk.commitIndex ∧ disk'.hardState = disk.hardState := by
  unfold Disk.compact at hcompact
  split at hcompact
  · simp at hcompact
  · split at hcompact
    next hpassed =>
      cases hcompact
      exact ⟨h, hpassed, rfl, rfl⟩
    next hlater =>
      obtain ⟨hle, hterm⟩ := hposition.resolve_left hlater
      cases hcompact
      refine ⟨{ h with
        base_le := hle
        baseTerm := hterm
        log_eq := ?_
        filed := fun _ => hfiled }, le_rfl, rfl, rfl⟩
      dsimp only
      rw [h.log_eq, List.drop_drop]
      congr 1
      omega

theorem Replicates.compacted {n n' : Node} {base : Nat} (h : Replicates config σ ρ id n)
    (hvalid : σ.Valid LogEntry.term config.Quorum) (hle : n.logBaseIndex ≤ base)
    (hinside : base ≤ (σ.llog n.term).length)
    (hsame : n' = { n with logBaseIndex := base, logBaseTerm := n'.logBaseTerm, log := n'.log }) :
    Replicates config σ ρ id n' := by
  rw [hsame]
  exact
    { own := h.own
      matched := h.matched
      next := fun f => (h.next f).mono (min_le_min (max_le_max le_rfl hle) le_rfl)
      snapshot := fun f hf =>
        have ⟨hpos, hoffers⟩ := h.snapshot f hf
        ⟨hpos.trans_le hle, hvalid.inv.offers_later hoffers hle hinside⟩
      commit_ge := h.commit_ge
      ready := h.ready
      reads := fun read hread => by
        obtain ⟨hpositive, hmembers, hbegun⟩ := h.reads read hread
        exact ⟨hpositive, hmembers, hbegun⟩ }

theorem Serves.compacted {disk : Disk} {files : List Snapshot.State}
    (h : Serves config guarded prompt σ ρ trace id disk files p)
    (hvalid : σ.Valid LogEntry.term config.Quorum) (hstored : Stored guarded σ id files disk)
    {index term : Nat} (hfiled : Filed files index term) :
    Serves config guarded prompt σ ρ trace id disk files
      { p with core := p.core.compactLog index term, capture := none } := by
  have hinside : p.core.lastApplied ≤ (σ.log id).length :=
    (h.rest.applied_le.trans h.rest.commit_eq.le).trans hstored.commit_le
  have hholds := h.rest.holds.compactLog hinside index term
  by_cases hskip : index ≤ p.core.logBaseIndex ∨ index > p.core.lastApplied ∨
      p.core.termAt index ≠ term
  · have hsame : p.core.compactLog index term = p.core := if_pos hskip
    rw [hsame]
    exact { h with capture := by simp }
  · have hsame : p.core.compactLog index term = { p.core with
        log := p.core.log.drop (index - p.core.logBaseIndex)
        logBaseIndex := index
        logBaseTerm := term } := if_neg hskip
    rw [not_or, not_or, Nat.not_le, Nat.not_lt, not_not] at hskip
    obtain ⟨hlt, hle, hterm⟩ := hskip
    rw [hsame] at hholds ⊢
    exact
      { h with
        rest :=
          { h.rest with
            holds := hholds
            base_le := hle
            filed := fun _ => hfiled }
        campaigns := fun hrole => by
          obtain ⟨hvotes, hown, hcand, hfresh⟩ := h.campaigns hrole
          exact ⟨hvotes, hown, hcand, hfresh⟩
        leads := fun hrole => by
          obtain ⟨hlead, hlog, hlast⟩ := h.leads hrole
          exact ⟨hlead, hlog, hlast⟩
        replicates := fun hguarded hrole => by
          refine (h.replicates hguarded hrole).compacted hvalid hlt.le ?_ rfl
          rw [← (h.leads hrole).holds]
          exact hle.trans hinside
        capture := by simp }

theorem Runs.with_disk {disk : Disk} (h : Runs config guarded prompt σ ρ trace id server)
    (hstored : Stored guarded σ id server.files disk)
    (hserves : Serves config guarded prompt σ ρ trace id disk server.files p) :
    Runs config guarded prompt σ ρ trace id { server with disk := disk, process := some p } := by
  refine ⟨hstored, h.owned, ?_⟩
  rintro _ ⟨⟩
  exact hserves

theorem Stands.advanceCapture (h : Stands config guarded prompt σ ρ trace id server)
    (hstep : server.advanceCapture = some server') :
    Runs config guarded prompt σ ρ trace id server' ∧
      server.disk.commitIndex ≤ server'.disk.commitIndex := by
  unfold Server.advanceCapture at hstep
  split at hstep
  · simp at hstep
  next p hp =>
    have hserves := h.runs.serves p hp
    split at hstep
    · simp at hstep
    next state hcapture =>
      cases hstep
      obtain ⟨hposition, -, howned⟩ := hserves.capture _ hcapture
      have hfiles : ∀ file ∈ server.files, file ∈ state :: server.files :=
        fun file hfile => List.mem_cons_of_mem _ hfile
      refine ⟨⟨h.runs.stored.more hfiles, fun file hfile => ?_, ?_⟩, le_rfl⟩
      · rcases List.mem_cons.mp hfile with rfl | hfile
        · exact howned
        · exact h.runs.owned file hfile
      · rintro _ ⟨⟩
        refine
          { hserves with
            rest := hserves.rest.more hfiles
            ready := fun file hready => hfiles file (hserves.ready file hready)
            capture := ?_ }
        rintro _ ⟨⟩
        exact ⟨hposition, fun _ => List.mem_cons_self, howned⟩
    next state hcapture =>
      obtain ⟨hposition, hsaved, howned⟩ := hserves.capture _ hcapture
      have hstate : state ∈ server.files := hsaved (by simp)
      obtain ⟨disk, hdisk, rfl⟩ := Option.map_eq_some_iff.mp hstep
      obtain ⟨hstored, hpassed, hcommit, hhard⟩ : Stored guarded σ id server.files disk ∧
          state.includedIndex ≤ disk.snapshotIndex ∧
          disk.commitIndex = server.disk.commitIndex ∧
          disk.hardState = server.disk.hardState := by
        split at hdisk
        next hzero =>
          cases hdisk
          exact ⟨h.runs.stored, by rw [hzero]; exact Nat.zero_le _, rfl, rfl⟩
        · exact h.runs.stored.compacted hdisk ⟨state, hstate, rfl, rfl⟩ hposition
      refine ⟨h.runs.with_disk hstored ?_, hcommit.ge⟩
      refine
        { hserves with
          rest :=
            { hserves.rest with
              vote_eq := hserves.rest.vote_eq.trans (by rw [hhard])
              commit_eq := hserves.rest.commit_eq.trans hcommit.symm }
          capture := ?_ }
      rintro _ ⟨⟩
      exact ⟨.inl hpassed, fun _ => hstate, howned⟩
    next state hcapture =>
      cases hstep
      obtain ⟨-, hsaved, -⟩ := hserves.capture _ hcapture
      exact ⟨h.runs.with_process (hserves.compacted h.valid h.runs.stored
        ⟨state, hsaved (by simp), rfl, rfl⟩), le_rfl⟩

theorem Stands.upkeep (h : Stands config guarded prompt σ ρ trace id server) {command : Command}
    (hkept : Upkeep config id server command server') :
    Runs config guarded prompt σ ρ trace id server' ∧
      server.disk.commitIndex ≤ server'.disk.commitIndex := by
  cases hkept with
  | crash => exact ⟨h.runs.crash, le_rfl⟩
  | capture done => exact h.capture done
  | advanceCapture done => exact h.advanceCapture done
  | abandonCapture done =>
      refine ⟨h.runs.abandonCapture done, ?_⟩
      obtain ⟨p, -, rfl⟩ := Option.map_eq_some_iff.mp done
      exact le_rfl
  | cancel done =>
      refine ⟨h.runs.cancel done, ?_⟩
      obtain ⟨p, -, rfl⟩ := Option.map_eq_some_iff.mp done
      exact le_rfl
  | cancelRead done =>
      refine ⟨h.runs.cancelRead done, ?_⟩
      obtain ⟨p, -, rfl⟩ := Option.map_eq_some_iff.mp done
      exact le_rfl

/-! ## Restarts -/

theorem Stored.backs {files : List Snapshot.State} {disk : Disk}
    (h : Stored guarded σ id files disk) (hvalid : σ.Valid LogEntry.term config.Quorum)
    (htidy : Tidy config σ) : disk.Backs (σ.log id) :=
  ⟨htidy.log hvalid id, h.base_le, h.commit_le, h.baseTerm, h.log_eq⟩

theorem AtRest.opened {files : List Snapshot.State} {disk : Disk} {core : Node}
    {found : Option Snapshot.State} (hstored : Stored guarded σ id files disk)
    (hbegins : disk.Begins (σ.log id) files found)
    (hopened : Opened config id disk (σ.log id) found core) :
    AtRest config σ id files disk { core with lastApplied := disk.commitIndex } := by
  have hholds := hopened.holds
  have hfiled : 0 < startIndex found → Filed files (startIndex found) (startTerm found) := by
    cases found with
    | none => simp [startIndex]
    | some file => exact fun _ => ⟨file, hbegins.stored file rfl, rfl, rfl⟩
  refine
    { id_eq := ?_
      peers_eq := ?_
      holds := hholds.of_parts rfl
      term_eq := ?termEq
      vote_eq := ?_
      commit_eq := ?_
      base_le := ?baseLe
      applied_le := ?_
      durableTerm := ?_
      durableVote := ?_
      durableLog := ?_
      durableCommit := ?_
      noHardState := ?_
      noLog := ?_
      noCommit := ?_
      noSnapshot := ?_
      filed := ?filed }
  all_goals rw [hopened.core_eq]
  case termEq => exact hstored.term_eq
  case baseLe => exact hbegins.commit_le
  case filed => exact hfiled

theorem recovered_machine {files : List Snapshot.State} {disk : Disk} {sessions : SessionMachine}
    {found : Option Snapshot.State} (hbegins : disk.Begins (σ.log id) files found)
    (hcommitted : (σ.log id).take disk.commitIndex = σ.chosen.take disk.commitIndex)
    (himages : ∀ file ∈ files, Image config σ.chosen file)
    (hrestore : (newSessionMachine config.activeSessionLimit).restore found = .ok sessions) :
    sessions.applyAll (recoveredFrom (σ.log id) (startIndex found) disk.commitIndex) =
      config.machine (σ.chosen.take disk.commitIndex) := by
  have hfront : (σ.log id).take (startIndex found) = σ.chosen.take (startIndex found) := by
    have hle := min_eq_left hbegins.commit_le
    rw [← hle, ← List.take_take, hcommitted, List.take_take]
  have hsessions : sessions = config.machine ((σ.log id).take (startIndex found)) := by
    cases found with
    | none => exact (Except.ok.inj hrestore).symm
    | some file =>
        rw [hfront]
        exact restore_image (himages file (hbegins.stored file rfl)) rfl hrestore
  rw [hsessions, machine_recovered hbegins.commit_le, hcommitted]

theorem recovered_observed {disk : Disk} {index : Nat} {entry : LogEntry}
    (hbacks : disk.Backs (σ.log id))
    (hcommitted : (σ.log id).take disk.commitIndex = σ.chosen.take disk.commitIndex)
    (hmem : entry ∈ recoveredFrom (σ.log id) index disk.commitIndex) :
    TrueObservation config prompt σ trace (.applied id entry) := by
  obtain ⟨offset, hoffset, rfl⟩ := List.getElem_of_mem hmem
  simp only [recoveredFrom, List.length_take, List.length_drop] at hoffset
  have hinside : index + offset < (σ.log id).length := by omega
  have hindex := hbacks.numbered (index + offset) (σ.log id)[index + offset]
    (List.getElem?_eq_getElem hinside)
  have hchosen : σ.chosen[index + offset]? = some (σ.log id)[index + offset] := by
    rw [← List.getElem?_take_of_lt (by omega : index + offset < disk.commitIndex), ← hcommitted,
      List.getElem?_take_of_lt (by omega), List.getElem?_eq_getElem hinside]
  simp only [recoveredFrom, List.getElem_take, List.getElem_drop]
  exact ⟨by omega, by rwa [hindex, Nat.add_sub_cancel]⟩

theorem Stands.start {turn : Turn} (h : Stands config guarded prompt σ ρ trace id server)
    (hmember : id ∈ config.members) (hstart : server.start config id = some turn) :
    Leaves config guarded prompt σ ρ trace id turn ∧
      turn.server.disk.commitIndex = server.disk.commitIndex := by
  have hbacks := h.runs.stored.backs h.valid h.tidy
  obtain ⟨core, found, sessions, -, hbegins, hopened, hrestore, rfl⟩ :=
    start_backed hbacks hstart
  have hrest := AtRest.opened h.runs.stored hbegins hopened
  have hrole : core.role = .follower := by rw [hopened.core_eq]
  have hreads : core.pendingReads = [] := by rw [hopened.core_eq]
  have hcommitted := h.runs.stored.commit_chosen h.valid.agreed
  refine ⟨{ runs := ⟨h.runs.stored, h.runs.owned, ?_⟩
            sent := by simp
            elected := by simp
            observed := fun hguarded observation hmem => ?_
            covered := by simp }, rfl⟩
  · rintro _ ⟨⟩
    exact
      { member := hmember
        rest := hrest
        campaigns := by simp [hrole]
        leads := by simp [hrole]
        replicates := by simp [hrole]
        idle := fun _ => ⟨hreads, rfl, fun _ => rfl⟩
        sessions := fun hguarded => recovered_machine hbegins (hcommitted hguarded)
          (fun file hfile => (h.runs.owned file hfile).2 hguarded) hrestore
        waiting := by simp
        awaiting := by simp
        inFlight := by simp
        incoming := by simp
        ready := by simp
        capture := by simp
        begun := by simp [hreads]
        asked := by simp [hrole]
        stamped := by simp
        arrived := by simp
        since := by simp [hreads] }
  · obtain ⟨entry, hentry, rfl⟩ := List.mem_map.mp hmem
    exact recovered_observed hbacks (hcommitted hguarded) hentry

end Standing

end QuorumKV.Cluster
