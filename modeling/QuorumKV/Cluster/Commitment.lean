import QuorumKV.Cluster.Leadership
import QuorumKV.Raft.Ledger

/-!
# Commits and confirmed reads

What a Leader decides once a response has come in.  The copies it counts for an
entry of its own term are a commit of the consensus state; the acknowledgements
it counts for a read are a quorum that had not left its term when the read
began, so nothing committed before is missing from what the read will see.
-/

namespace QuorumKV.Cluster

open Raft QuorumKV.Runtime Session Foundation

section Committing

variable {config : Config} {guarded : Prop} {σ : Ideal} {ρ : Rounds} {id : NodeID}
  {files : List Snapshot.State} {disk : Disk} {n : Node}

/-! ## Acknowledged reads -/

structure Acknowledged (config : Config) (guarded : Prop) (σ : Ideal) (ρ : Rounds) (id : NodeID)
    (n : Node) (acknowledged : Node × List Action) : Prop where
  eq : acknowledged.1 = { n with pendingReads := acknowledged.1.pendingReads }
  transmits : Transmits config guarded σ ρ id acknowledged.1
  begun : ∀ read ∈ acknowledged.1.pendingReads, read.id ∈ n.pendingReads.map PendingRead.id
  confirmations : ∀ action ∈ acknowledged.2, ∃ readID index, action = .readConfirmed readID index
  walk : ∀ log, Walk log (fun readID applied => guarded → Confirms ρ n readID applied)
    n.lastApplied acknowledged.2 n.lastApplied

theorem Acknowledged.unchanged (h : Transmits config guarded σ ρ id n) :
    Acknowledged config guarded σ ρ id n (n, []) :=
  ⟨rfl, h, fun _ hread => List.mem_map_of_mem hread, by simp, fun _ => rfl⟩

theorem Acknowledged.reading (h : Transmits config guarded σ ρ id n) (reads : List PendingRead)
    (hreads : guarded → ∀ read ∈ reads, Reads config ρ n read)
    (hbegun : ∀ read ∈ reads, read.id ∈ n.pendingReads.map PendingRead.id) :
    Acknowledged config guarded σ ρ id n
      ({ n with pendingReads := reads } : Node).completeReads := by
  refine ⟨rfl, ?_, ?_, ?_, fun log => ?_⟩
  · exact h.reading _ fun hguarded read hread =>
      hreads hguarded read (List.mem_of_mem_filter hread)
  · exact fun read hread => hbegun read (List.mem_of_mem_filter hread)
  · intro action hmem
    obtain ⟨read, -, rfl⟩ := List.mem_map.mp hmem
    exact ⟨_, _, rfl⟩
  · refine completeReads_walk (n := { n with pendingReads := reads }) ?_
    intro read hread hconfirmed hle hguarded
    obtain ⟨-, -, round, hround, -, hfloor⟩ := hreads hguarded read hread
    exact ⟨hbegun read hread, round, hround, (hfloor hconfirmed).trans hle⟩

theorem Transmits.acknowledgeRead (h : Transmits config guarded σ ρ id n)
    (hquorum : ∀ Q : Finset NodeID, (∀ f ∈ Q, f ∈ config.members) → n.quorum ≤ Q.card →
      config.Quorum Q)
    (hrounds : guarded → TrueRounds config σ ρ) {dest : NodeID} {r : AppendEntriesResponse}
    (htrue : TrueResponse config guarded σ ρ dest r) (hterm : r.term = n.term)
    (hgenuine : guarded → r.success = true ∨ r.conflictIndex ≠ 0) :
    Acknowledged config guarded σ ρ id n (n.acknowledgeRead r) := by
  unfold Node.acknowledgeRead
  split
  · exact .unchanged h
  next read hfound =>
  have hmem := List.mem_of_find?_eq_some hfound
  have hid : read.id = r.readID := by simpa using List.find?_some hfound
  split
  · exact .unchanged h
  next hwaiting =>
  rw [not_or] at hwaiting
  have hreads : guarded → ∀ confirmed commitIndex, (confirmed = true → commitIndex = n.commitIndex ∧
      n.quorum ≤ (insert r.sender read.acknowledgements).card) →
      Reads config ρ n { read with
        acknowledgements := insert r.sender read.acknowledgements
        confirmed := confirmed
        commitIndex := commitIndex } := by
    intro hguarded confirmed commitIndex hconfirmed
    obtain ⟨hpositive, hmembers, round, hround, hreached, -⟩ :=
      (h.replicates hguarded).reads read hmem
    obtain ⟨other, hother, hsender⟩ := htrue.read hguarded hwaiting.1 (hgenuine hguarded)
    rw [hterm, ← hid, hround] at hother
    obtain rfl := Option.some.inj hother
    have hall : ∀ f ∈ insert r.sender read.acknowledgements, f ∈ round.reached := by
      intro f hf
      rcases Finset.mem_insert.mp hf with rfl | hf
      · exact hsender
      · exact hreached f hf
    have hmembers' : ∀ f ∈ insert r.sender read.acknowledgements, f ∈ config.members := by
      intro f hf
      rcases Finset.mem_insert.mp hf with rfl | hf
      · exact htrue.member
      · exact hmembers f hf
    refine ⟨hpositive, hmembers', round, hround, hall, fun hset => ?_⟩
    obtain ⟨rfl, hcard⟩ := hconfirmed hset
    obtain ⟨-, -, -, hfloor⟩ := hrounds hguarded _ _ _ hround
    exact (hfloor ⟨_, hquorum _ hmembers' hcard, hall⟩).trans (h.replicates hguarded).commit_ge
  have hold := fun hguarded => (h.replicates hguarded).reads
  dsimp only
  split
  · refine ⟨rfl, h.reading _ fun hguarded other hother => ?_, ?_, by simp, fun _ => rfl⟩
    · rcases mem_insertRead hother with rfl | hother
      · exact hreads hguarded read.confirmed read.commitIndex fun hset =>
          absurd hset hwaiting.2
      · exact hold hguarded other hother
    · intro other hother
      rcases mem_insertRead hother with rfl | hother
      · exact List.mem_map.mpr ⟨read, hmem, rfl⟩
      · exact List.mem_map_of_mem hother
  next hreached =>
    refine .reading h _ (fun hguarded other hother => ?_) ?_
    · rcases mem_insertRead hother with rfl | hother
      · exact hreads hguarded true n.commitIndex fun _ => ⟨rfl, Nat.not_lt.mp hreached⟩
      · exact hold hguarded other hother
    · intro other hother
      rcases mem_insertRead hother with rfl | hother
      · exact List.mem_map.mpr ⟨read, hmem, rfl⟩
      · exact List.mem_map_of_mem hother

/-! ## Commits -/

def copies (n : Node) (id : NodeID) (index : Nat) : Finset NodeID :=
  insert id (n.peers.filter fun peer => n.matchIndex peer ≥ index).toFinset

theorem card_copies (hnodup : n.peers.Nodup) (hid : id ∉ n.peers) (index : Nat) :
    (copies n id index).card = n.replicated index := by
  rw [copies, Finset.card_insert_of_notMem (by simp [hid]),
    List.toFinset_card_of_nodup (hnodup.filter _), Node.replicated, Nat.add_comm]

theorem Transmits.commit (h : Transmits config guarded σ ρ id n)
    (hvalid : σ.Valid LogEntry.term config.Quorum) (htidy : Tidy config σ) {index : Nat}
    (hcopies : config.Quorum (copies n id index)) (hlt : n.commitIndex < index)
    (hle : index ≤ n.lastLogIndex) (hterm : n.termAt index = n.term) :
    ∃ σ', Acts config id σ σ' ∧ σ'.term = σ.term ∧ σ'.vote = σ.vote ∧ σ'.log = σ.log ∧
      (guarded → index ≤ σ'.lcommit n.term) ∧
      Transmits config guarded σ' ρ id { n with commitIndex := index } := by
  have hbase := h.base_le.trans hlt.le
  have htransmits : ∀ σ' : Ideal, σ'.log = σ.log → σ'.llog = σ.llog → σ'.lead = σ.lead →
      (guarded → σ'.Known n.term ((σ.llog n.term).take index)) →
      (guarded → Replicates config σ' ρ id { n with commitIndex := index }) →
      Transmits config guarded σ' ρ id { n with commitIndex := index } := by
    intro σ' hlog hllog hlead hknown hreplicates
    obtain ⟨hleads, hholds, hlast⟩ := h.leads
    exact
      { id_eq := h.id_eq
        others := h.others
        holds := by
          rw [hlog]
          exact h.holds.of_parts rfl
        durable := h.durable
        leads := ⟨by rw [hlead]; exact hleads, by rw [hlog, hllog]; exact hholds,
          by rw [hllog]; exact hlast⟩
        base_le := hbase
        commit_le := hle
        known := by rw [hllog]; exact hknown
        replicates := hreplicates }
  by_cases hguarded : guarded
  · have hold := h.replicates hguarded
    have hinside : index ≤ (σ.llog n.term).length := h.lastIndex ▸ hle
    have hcurrent : termAt LogEntry.term (σ.llog n.term) index = n.term := by
      rw [← h.holds_llog.termAt_eq hbase, hterm]
    have hacks : ∀ f ∈ copies n id index, index ≤ σ.ack f n.term := by
      intro f hf
      rcases Finset.mem_insert.mp hf with rfl | hf
      · exact hinside.trans hold.own
      · have hmatched := (List.mem_filter.mp (List.mem_toFinset.mp hf)).2
        exact (of_decide_eq_true hmatched).trans (hold.matched f)
    have hacts : Acts config id σ (σ.committed n.term index) :=
      { Consensus.ActsAt.commit config.quorum_inter hvalid h.leads.leads hcopies (by omega) hinside
          hcurrent hacks with
        tidy := ⟨htidy.numbered, htidy.voted⟩ }
    have hlcommit : (σ.committed n.term index).lcommit n.term = index := by
      have hbelow := hold.commit_ge
      simp only [Consensus.committed, Function.update_self]
      omega
    refine ⟨_, hacts, rfl, rfl, rfl, fun _ => hlcommit.ge,
      htransmits _ rfl rfl rfl (fun _ => ?_) (fun _ => ?_)⟩
    · refine ⟨n.term, le_rfl, ?_⟩
      rw [Consensus.decided, hlcommit]
      exact List.prefix_rfl
    · exact
        { own := hold.own
          matched := hold.matched
          next := hold.next
          snapshot := hold.snapshot
          commit_ge := hlcommit.le
          ready := fun _ => by
            rw [hlcommit]
            omega
          reads := fun read hread => (hold.reads read hread).of_term rfl }
  · exact ⟨σ, Acts.refl hvalid htidy, rfl, rfl, rfl, fun hguarded' => absurd hguarded' hguarded,
      htransmits σ rfl rfl rfl (fun hguarded' => absurd hguarded' hguarded)
        fun hguarded' => absurd hguarded' hguarded⟩

theorem Transmits.applied (h : Transmits config guarded σ ρ id n) {n' : Node}
    {index next durable : Nat}
    (happlied : Applied (σ.log id) index
      { n with nextCommitPersistence := next, durableCommitIndex := durable } n')
    (hindex : guarded → index ≤ σ.lcommit n.term) :
    Transmits config guarded σ ρ id n' := by
  have hreads := happlied.reads
  have hready := happlied.ready
  rw [happlied.eq] at hreads hready ⊢
  generalize n'.readReady = ready, n'.pendingReads = reads at hreads hready
  have hold := h.replicates
  exact
    { id_eq := h.id_eq
      others := h.others
      holds := h.holds.of_parts rfl
      durable := h.durable
      leads := ⟨h.leads.leads, h.leads.holds, h.leads.last⟩
      base_le := h.base_le
      commit_le := h.commit_le
      known := h.known
      replicates := fun hguarded =>
        { own := (hold hguarded).own
          matched := (hold hguarded).matched
          next := (hold hguarded).next
          snapshot := (hold hguarded).snapshot
          commit_ge := (hold hguarded).commit_ge
          ready := fun hset => by
            rcases hready hset with hset | ⟨position, hle, hpos, -⟩
            · exact (hold hguarded).ready hset
            · exact (hpos.trans_le hle).trans_le (hindex hguarded)
          reads := fun read hread =>
            ((hold hguarded).reads read (hreads read hread)).of_term rfl } }

/-! ## Responses -/

theorem recordResponse_body (n : Node) (r : AppendEntriesResponse) :
    body (n.recordResponse r) = body n ∧ (n.recordResponse r).role = n.role ∧
      (n.recordResponse r).pendingReads = n.pendingReads := by
  unfold Node.recordResponse
  split <;> exact ⟨rfl, rfl, rfl⟩

theorem Transmits.continueReplication (h : Transmits config guarded σ ρ id n)
    (hvalid : σ.Valid LogEntry.term config.Quorum) {r : AppendEntriesResponse}
    (hother : r.sender ≠ id) (leaderCommit : Nat)
    (hnone : n.commitCandidate n.lastLogIndex = none) :
    Transmits config guarded σ ρ id (n.continueReplication r leaderCommit).1 ∧
      Sends n (n.continueReplication r leaderCommit).1 ∧
      ∀ action ∈ (n.continueReplication r leaderCommit).2,
        Plain action ∧ Announces config guarded σ ρ id action := by
  simp only [Node.continueReplication, Node.advanceLeaderCommit, hnone, Bool.false_eq_true,
    if_false]
  split
  · obtain ⟨htransmits, hactions⟩ := h.sendAppendEntriesTo hvalid hother
      fun hguarded hne => h.pendingReadFor_begun hguarded hne
    exact ⟨htransmits, sendAppendEntriesTo_sends h.durable _ _, hactions⟩
  · exact ⟨h, rfl, by simp⟩

theorem Acknowledged.mild {acknowledged : Node × List Action}
    (h : Acknowledged config guarded σ ρ id n acknowledged) :
    ∀ action ∈ acknowledged.2, Mild action ∧ Announces config guarded σ ρ id action := by
  intro action hmem
  obtain ⟨readID, index, rfl⟩ := h.confirmations action hmem
  exact ⟨trivial, trivial⟩

theorem Poised.continueReplication (h : Poised config guarded σ ρ id files disk n) {event : Event}
    {r : AppendEntriesResponse} (hrole : n.role = .leader)
    (htransmits : Transmits config guarded σ ρ id (n.recordResponse r))
    (htrue : TrueResponse config guarded σ ρ id r) (hterm : r.term = n.term)
    (hgenuine : guarded → r.success = true ∨ r.conflictIndex ≠ 0) (leaderCommit : Nat)
    (hnone : (n.recordResponse r).commitCandidate (n.recordResponse r).lastLogIndex = none)
    (hstep : n.step event =
      let sent := (n.recordResponse r).continueReplication r leaderCommit
      ((sent.1.acknowledgeRead r).1, sent.2 ++ (sent.1.acknowledgeRead r).2)) :
    Achieves config guarded id files ρ event σ disk n := by
  obtain ⟨hbody₁, hrole₁, hreads₁⟩ := recordResponse_body n r
  obtain ⟨htransmits₂, hsends, hactions⟩ :=
    htransmits.continueReplication h.valid htrue.other leaderCommit hnone
  dsimp only at hstep
  generalize (n.recordResponse r).continueReplication r leaderCommit = sent at *
  have hbody₂ : body sent.1 = body n := hsends.body_eq.trans hbody₁
  have hreads₂ : sent.1.pendingReads = n.pendingReads := by
    rw [hsends]
    exact hreads₁
  have hterm₂ : sent.1.term = n.term := (congrArg Node.term hbody₂ :)
  have happlied₂ : sent.1.lastApplied = n.lastApplied := (congrArg Node.lastApplied hbody₂ :)
  have hacknowledged := htransmits₂.acknowledgeRead
    (fun Q hmembers hcard => (h.rest.of_body hbody₂).quorum h.member hmembers hcard) h.rounds htrue
    (hterm.trans hterm₂.symm) hgenuine
  generalize sent.1.acknowledgeRead r = acknowledged at *
  have hbody₃ : body acknowledged.1 = body n := by
    rw [hacknowledged.eq]
    exact hbody₂
  have hrole₃ : acknowledged.1.role = .leader := by
    rw [hacknowledged.eq, hsends]
    exact hrole₁.trans hrole
  refine Achieves.mild acknowledged.1 (sent.2 ++ acknowledged.2) h.refl h.stored h.rest hstep hbody₃
    ?_ (fun log => ?_) ?_ (fun _ => hrole) (by simp [hrole₃]) h.leads
    (fun hguarded _ => hacknowledged.transmits.replicates hguarded) (by simp [hrole₃]) ?_
  · intro action hmem
    rcases List.mem_append.mp hmem with hmem | hmem
    · exact mild_of_plain (hactions action hmem).1
    · exact (hacknowledged.mild action hmem).1
  · have hwalk := hacknowledged.walk log
    rw [happlied₂] at hwalk
    simp only [Confirms, hreads₂, hterm₂] at hwalk ⊢
    exact (Walk.plain (fun action hmem => (hactions action hmem).1) _).append hwalk
  · intro action hmem
    rcases List.mem_append.mp hmem with hmem | hmem
    · exact (hactions action hmem).2
    · exact (hacknowledged.mild action hmem).2
  · intro read hread
    exact .inl (hreads₂ ▸ hacknowledged.begun read hread)

theorem Poised.settle (h : Poised config guarded σ ρ id files disk n) {event : Event} {σ' : Ideal}
    {k : Node} {acks after : List Action} {index : Nat} (hrole : n.role = .leader)
    (hacts : Acts config id σ σ') (hσterm : σ'.term = σ.term) (hσvote : σ'.vote = σ.vote)
    (hσlog : σ'.log = σ.log) (hlcommit : guarded → index ≤ σ'.lcommit n.term)
    (htransmits : Transmits config guarded σ' ρ id k)
    (hbody : body k = body { n with commitIndex := index }) (hlt : n.commitIndex < index)
    (hle : index ≤ n.lastLogIndex) (hrole' : k.role = .leader)
    (hbegun : ∀ read ∈ k.pendingReads, read.id ∈ n.pendingReads.map PendingRead.id)
    (hacks : ∀ action ∈ acks, Mild action ∧ Applying action)
    (hwalk : ∀ log, Walk log (fun readID applied => guarded → Confirms ρ n readID applied)
      n.lastApplied acks n.lastApplied)
    (hafter : ∀ action ∈ after, Plain action ∧ Announces config guarded σ' ρ id action)
    (hstep : n.step event = ((k.persistCommit after).1, (k.persistCommit after).2 ++ acks)) :
    Achieves config guarded id files ρ event σ disk n := by
  have hterm : k.term = n.term := (congrArg Node.term hbody :)
  have hcommit : k.commitIndex = index := (congrArg Node.commitIndex hbody :)
  have happlied : k.lastApplied = n.lastApplied := (congrArg Node.lastApplied hbody :)
  have hbase : k.logBaseIndex = n.logBaseIndex := (congrArg Node.logBaseIndex hbody :)
  have hdurable : k.durableCommitIndex = n.commitIndex :=
    (congrArg Node.durableCommitIndex hbody :).trans h.rest.durableCommit
  have hpending : k.pendingCommit = fun _ => none :=
    (congrArg Node.pendingCommit hbody :).trans h.rest.noCommit
  have hinside : index ≤ (σ'.log id).length := by
    rw [hσlog, ← h.rest.holds.lastIndex]
    exact hle
  have hmax : max n.lastApplied index = index :=
    max_eq_right (h.rest.applied_le.trans hlt.le)
  have hstored₀ := h.stored.kept hacts (by rw [hσterm]) (by rw [hσvote]) (by rw [hσlog])
  have hstored₁ : Stored guarded σ' id files { disk with commitIndex := index } := by
    refine hstored₀.committed (by rw [← h.rest.commit_eq]; exact hlt.le) hinside fun hguarded => ?_
    have hknown := htransmits.known hguarded
    rwa [hcommit, ← htransmits.leads.holds, hterm, h.rest.term_eq, ← hσterm] at hknown
  have hholds : (settled k).Holds (σ'.log id) := htransmits.holds.of_parts rfl
  have hready : (settled k).logBaseIndex ≤ (settled k).lastApplied := by
    simp only [settled, hbase, happlied]
    exact h.rest.base_le
  have hfinal := applyThrough_applied hholds hready hinside
  have hlater : Walk ((σ'.log id).take index)
      (fun readID applied => guarded → Confirms ρ n readID applied) n.lastApplied
      ((settled k).applyThrough index).2 index := by
    have hloop : Walk ((σ'.log id).take index)
        (fun readID applied => guarded → Confirms ρ n readID applied) _ _ _ :=
      applyThrough_walk hholds hready hinside
        (fun offset hoffset => List.getElem?_take_of_lt hoffset)
        fun read hread hconfirmed hread' hguarded => by
          obtain ⟨-, -, round, hround, -, hfloor⟩ :=
            (htransmits.replicates hguarded).reads read hread
          rw [hterm] at hround
          exact ⟨hbegun read hread, round, hround, (hfloor hconfirmed).trans hread'⟩
    simpa only [settled, happlied, hmax] using hloop
  have hdrain := drain_commit 2 k after acks disk [] [] hpending
    (by rw [hcommit, ← h.rest.commit_eq]; exact hlt.le)
    (by rw [hcommit, h.stored.lastIndex, ← hσlog]; exact hinside)
  rw [hcommit] at hdrain
  have happlying := applyThrough_applying (settled k) index
  have hshape : (settled k).lastApplied = n.lastApplied := happlied
  rw [hshape, hmax] at hfinal
  generalize (settled k).applyThrough index = applied at *
  have htransmits' : Transmits config guarded σ' ρ id applied.1 :=
    htransmits.applied hfinal (by rw [hterm]; exact hlcommit)
  have hroleFinal : applied.1.role = .leader := by
    rw [hfinal.eq]
    exact hrole'
  have htermFinal : applied.1.term = n.term := by
    rw [hfinal.eq]
    exact hterm
  refine ⟨σ', ⟨hacts, hstored₀, fun hfollower => absurd hrole hfollower, fun hguarded _ _ => ?_⟩, ?_⟩
  · rw [hstep]
    exact le_max_of_le_right (hcommit.le.trans (le_min hle (hlcommit hguarded)))
  have hquiet : Quiet (acks ++ (applied.2 ++ after)) :=
    (quiet_of_applying fun action hmem => (hacks action hmem).2).append
      ((quiet_of_applying happlying).append
        (quiet_of_plain fun action hmem => (hafter action hmem).1))
  have hmem : ∀ action ∈ acks ++ (applied.2 ++ after), Applying action ∨
      Plain action ∧ Announces config guarded σ' ρ id action := by
    intro action hmem
    rcases List.mem_append.mp hmem with hmem | hmem
    · exact .inl (hacks action hmem).2
    · rcases List.mem_append.mp hmem with hmem | hmem
      · exact .inl (happlying action hmem)
      · exact .inr (hafter action hmem)
  rw [Runtime.step, hstep, hdrain, drain_all_quiet _ _ hquiet]
  simp only [List.nil_append]
  have hrefl : Acts config id σ' σ' := Acts.refl hacts.valid hacts.tidy
  refine Finishes.after (.single hstored₀ hrefl (fun _ => rfl) ?_ hrefl hstored₁)
    (Finishes.completed hrefl ?_)
  · simp only [Disk.save]
    rw [if_neg]
    rw [not_or, Nat.not_lt, Nat.not_lt, h.stored.lastIndex, ← h.rest.commit_eq, ← hσlog]
    exact ⟨hlt.le, hinside⟩
  exact
    { stored := hstored₁
      rest := by
        refine h.rest.committed (by rw [hσterm]) (by rw [hσlog]) hlt.le ?_
        have hsettled : body applied.1 =
            { body k with
              commitIndex := index, durableCommitIndex := index, lastApplied := index } := by
          rw [hfinal.eq]
          simp only [settled, hdurable, hcommit, max_eq_right hlt.le]
          rfl
        rw [hsettled, hbody]
        rfl
      campaigns := fun hcandidate => by simp [hroleFinal] at hcandidate
      leads := fun _ => htransmits'.leads
      replicates := fun hguarded _ => htransmits'.replicates hguarded
      idle := fun hfollower => by simp [hroleFinal, hrole] at hfollower
      elected := fun hfollower => absurd hrole hfollower
      sends := fun action haction => by
        rcases hmem action haction with happlying | ⟨-, hannounces⟩
        · exact announces_of_applying happlying
        · exact hannounces
      walk := by
        have hindex : applied.1.commitIndex = index ∧ applied.1.lastApplied = index := by
          rw [hfinal.eq]
          exact ⟨hcommit, rfl⟩
        rw [hindex.1, hindex.2]
        exact (hwalk _).append (hlater.append
          (Walk.plain (fun action haction => (hafter action haction).1) _))
      base_mono := le_rfl
      commit_mono := by
        rw [← h.rest.commit_eq]
        exact hlt.le
      keeps := .inr (hσlog ▸ List.take_prefix _ _)
      continues := fun _ _ => ⟨htermFinal, by rw [hσlog]⟩
      applies := fun _ _ _ _ => hroleFinal
      accepts := fun proposalID position haction => by
        rcases hmem _ haction with happlying | ⟨hplain, -⟩
        · exact happlying.elim
        · exact hplain.elim
      begun := fun read hread => .inl (hbegun read (hfinal.reads read hread))
      restores := fun position term haction => by
        rcases hmem _ haction with happlying | ⟨hplain, -⟩
        · exact happlying.elim
        · exact hplain.elim }

theorem Poised.commit (h : Poised config guarded σ ρ id files disk n) {event : Event}
    {r : AppendEntriesResponse} (hrole : n.role = .leader)
    (htransmits : Transmits config guarded σ ρ id (n.recordResponse r))
    (htrue : TrueResponse config guarded σ ρ id r) (hterm : r.term = n.term)
    (hgenuine : guarded → r.success = true ∨ r.conflictIndex ≠ 0) {index : Nat}
    (hsome : (n.recordResponse r).commitCandidate (n.recordResponse r).lastLogIndex = some index)
    (hstep : n.step event =
      let broadcast :=
        ({ n.recordResponse r with commitIndex := index } : Node).sendAppendEntries 0
      let acknowledged := (broadcast.1.persistCommit broadcast.2).1.acknowledgeRead r
      (acknowledged.1, (broadcast.1.persistCommit broadcast.2).2 ++ acknowledged.2)) :
    Achieves config guarded id files ρ event σ disk n := by
  obtain ⟨hbody₁, hrole₁, hreads₁⟩ := recordResponse_body n r
  generalize n.recordResponse r = n₁ at *
  have hrest₁ := h.rest.of_body hbody₁
  have hterm₁ : n₁.term = n.term := (congrArg Node.term hbody₁ :)
  have hcommit₁ : n₁.commitIndex = n.commitIndex := (congrArg Node.commitIndex hbody₁ :)
  have hlast₁ : n₁.lastLogIndex = n.lastLogIndex := (congrArg Node.lastLogIndex hbody₁ :)
  have happlied₁ : n₁.lastApplied = n.lastApplied := (congrArg Node.lastApplied hbody₁ :)
  obtain ⟨hlt, hle, hown, hcount⟩ := commitCandidate_some hsome
  have hcopies : config.Quorum (copies n₁ id index) := by
    refine hrest₁.quorum h.member (fun f hf => ?_) ?_
    · rcases Finset.mem_insert.mp hf with rfl | hf
      · exact h.member
      · exact (hrest₁.mem_peers.mp
          (List.mem_of_mem_filter (List.mem_toFinset.mp hf))).1
    · rw [card_copies hrest₁.nodup_peers (by simp [hrest₁.mem_peers])]
      exact hcount
  obtain ⟨σ₀, hacts, hσterm, hσvote, hσlog, hlcommit, htransmits₂⟩ :=
    htransmits.commit h.valid h.tidy hcopies hlt hle hown
  -- The Leader broadcasts the new commit index before it is written.
  obtain ⟨htransmits₃, hsends, hactions⟩ := htransmits₂.sendAppendEntries hacts.valid 0 (by simp)
  dsimp only at hstep
  generalize ({ n₁ with commitIndex := index } : Node).sendAppendEntries 0 = broadcast at *
  have hreads₃ : broadcast.1.pendingReads = n.pendingReads := by
    rw [hsends]
    exact hreads₁
  have hterm₃ : broadcast.1.term = n.term := by
    rw [hsends]
    exact hterm₁
  have happlied₃ : broadcast.1.lastApplied = n.lastApplied := by
    rw [hsends]
    exact happlied₁
  have hacknowledged := htransmits₃.acknowledgeRead
    (fun Q hmembers hcard => hrest₁.quorum h.member hmembers
      (by rw [hsends] at hcard; exact hcard))
    (fun hguarded => (h.rounds hguarded).mono hacts) (htrue.mono hacts (.refl _ _ _))
    (hterm.trans hterm₃.symm) hgenuine
  obtain ⟨hswap, hswap'⟩ := acknowledgeRead_persistCommit broadcast.1 broadcast.2 r
  rw [hswap, hswap'] at hstep
  generalize broadcast.1.acknowledgeRead r = acknowledged at *
  refine h.settle hrole hacts hσterm hσvote hσlog (hterm₁ ▸ hlcommit) hacknowledged.transmits ?_
    (hcommit₁ ▸ hlt) (hlast₁ ▸ hle) ?_ ?_ ?_ (fun log => ?_) hactions hstep
  · have hbody : body acknowledged.1 = { body n₁ with commitIndex := index } := by
      rw [hacknowledged.eq]
      exact hsends.body_eq
    rw [hbody, hbody₁]
    rfl
  · rw [hacknowledged.eq, hsends]
    exact hrole₁.trans hrole
  · exact hreads₃ ▸ hacknowledged.begun
  · intro action hmem
    obtain ⟨readID, position, rfl⟩ := hacknowledged.confirmations action hmem
    exact ⟨trivial, trivial⟩
  · have hwalk := hacknowledged.walk log
    rw [happlied₃] at hwalk
    simp only [Confirms, hreads₃, hterm₃] at hwalk ⊢
    exact hwalk

theorem Poised.appendEntriesResponse (h : Poised config guarded σ ρ id files disk n)
    {r : AppendEntriesResponse} (htrue : TrueResponse config guarded σ ρ id r)
    (hgenuine : guarded → ¬ staleRejection n r) :
    Achieves config guarded id files ρ (.appendEntriesResponse r) σ disk n := by
  by_cases hnewer : n.term < r.term
  · refine h.stepDown hnewer ?_
    simp only [Node.step, Node.handleAppendEntriesResponse, if_pos hnewer]
  by_cases hignored : n.role ≠ .leader ∨ r.term ≠ n.term
  · refine h.unchanged [] ?_ (by simp) (by simp)
    simp only [Node.step, Node.handleAppendEntriesResponse, if_neg hnewer, if_pos hignored]
  by_cases hother : (n.appendInFlight r.sender).requestID ≠ 0 ∧ r.requestID ≠ 0 ∧
      r.requestID ≠ (n.appendInFlight r.sender).requestID
  · refine h.unchanged [] ?_ (by simp) (by simp)
    simp only [Node.step, Node.handleAppendEntriesResponse, if_neg hnewer, if_neg hignored,
      if_pos hother]
  obtain ⟨hrole, hterm⟩ : n.role = .leader ∧ r.term = n.term := by
    simpa only [not_or, not_not] using hignored
  have hhints : guarded → r.success = false → r.conflictIndex ≠ 0 :=
    fun hguarded hfailed hzero => hgenuine hguarded ⟨hrole, hterm, hfailed, hzero, hother⟩
  have hgenuine' : guarded → r.success = true ∨ r.conflictIndex ≠ 0 := fun hguarded => by
    cases hsuccess : r.success with
    | true => exact .inl rfl
    | false => exact .inr (hhints hguarded hsuccess)
  have htransmits := (h.transmits hrole).recordResponse h.valid htrue hterm hhints
  have hstep : n.step (.appendEntriesResponse r) =
      let sent := (n.recordResponse r).continueReplication r
        (n.appendInFlight r.sender).leaderCommit
      ((sent.1.acknowledgeRead r).1, sent.2 ++ (sent.1.acknowledgeRead r).2) := by
    simp only [Node.step, Node.handleAppendEntriesResponse, if_neg hnewer, if_neg hignored,
      if_neg hother]
  cases hcandidate : (n.recordResponse r).commitCandidate (n.recordResponse r).lastLogIndex with
  | none => exact h.continueReplication hrole htransmits htrue hterm hgenuine' _ hcandidate hstep
  | some index =>
      refine h.commit hrole htransmits htrue hterm hgenuine' hcandidate ?_
      rw [hstep]
      simp only [Node.continueReplication, Node.advanceLeaderCommit, hcandidate, if_true]

end Committing

end QuorumKV.Cluster
