import QuorumKV.Cluster.Leadership

/-!
# Entries a Leader appends

A proposal and the no-op of a new Leader take the same way: the entry joins the
log in memory, it is written, and only then is it sent.  The write is where the
entry joins the Leader's log of the consensus state.
-/

namespace QuorumKV.Cluster

open Raft QuorumKV.Runtime Session Foundation

section Steps

variable {config : Config} {id : NodeID} {σ : Ideal}
  (hvalid : σ.Valid LogEntry.term config.Quorum) (htidy : Tidy config σ)

include hvalid htidy

theorem Acts.appendOwn {T : Nat} {entry : LogEntry} (leads : σ.lead T = some id)
    (current : σ.term id = T) (holds : σ.log id = σ.llog T) (stamped : entry.term = T)
    (hindex : entry.index = (σ.log id).length + 1) :
    Acts config id σ ((σ.appended id T entry).acknowledged id ((σ.log id).length + 1)) := by
  have happends := Consensus.ActsAt.append config.quorum_inter hvalid leads current holds stamped
  have hllog : (σ.appended id T entry).llog ((σ.appended id T entry).term id) =
      σ.llog T ++ [entry] := by
    simp [Consensus.appended, current]
  have hlog : (σ.appended id T entry).log id = σ.llog T ++ [entry] := by
    simp [Consensus.appended]
  have hacknowledges : Consensus.ActsAt LogEntry.term config.Quorum id σ
      ((σ.appended id T entry).acknowledged id ((σ.log id).length + 1)) := by
    refine happends.trans (Consensus.ActsAt.acknowledge config.quorum_inter happends.valid ?_ ?_ ?_)
    · simp [Consensus.appended, current, leads]
    · rw [hllog, holds]
      simp
    · rw [hllog, hlog]
      exact List.take_prefix _ _
  refine { hacknowledges with tidy := ⟨fun U => ?_, htidy.voted⟩ }
  by_cases hU : U = T
  · subst hU
    simp only [Consensus.acknowledged, Consensus.appended, Function.update_self]
    refine (htidy.numbered U).append fun offset e he => ?_
    have hoffset : offset = 0 := by
      have := (List.getElem?_eq_some_iff.mp he).1
      simpa using this
    subst hoffset
    obtain rfl : entry = e := by simpa using he
    rw [hindex, holds]
  · simp only [Consensus.acknowledged, Consensus.appended, Function.update_of_ne hU]
    exact htidy.numbered U

end Steps

section Appending

variable {config : Config} {guarded : Prop} {σ σ' : Ideal} {ρ : Rounds} {id : NodeID}
  {files : List Snapshot.State} {disk : Disk} {n m : Node} {entry : LogEntry}

theorem Stored.appended (h : Stored guarded σ id files disk) (hacts : Acts config id σ σ')
    (hterm : σ'.term id = σ.term id) (hvote : σ'.vote id = σ.vote id) {entries : List LogEntry}
    (hlog : σ'.log id = σ.log id ++ entries) :
    Stored guarded σ' id files { disk with log := disk.log ++ entries } := by
  have hbase := h.base_le.trans h.commit_le
  refine ⟨hterm ▸ h.term_eq, ?_, h.base_le, ?_, ?_, ?_, h.filed, fun hguarded => ?_⟩
  · rw [hterm, hvote]
    exact h.vote_eq
  · rw [hlog, List.length_append]
    exact h.commit_le.trans (Nat.le_add_right _ _)
  · rw [hlog, termAt_front (List.prefix_append _ _) hbase]
    exact h.baseTerm
  · rw [hlog, List.drop_append_of_le_length hbase, h.log_eq]
  · rw [hlog, List.take_append_of_le_length h.commit_le, hterm]
    exact (h.known hguarded).extend hacts.history

theorem AtRest.appended (h : AtRest config σ id files disk n) (hterm : σ'.term id = σ.term id)
    {entries : List LogEntry} (hne : entries ≠ []) (hlog : σ'.log id = σ.log id ++ entries)
    (hnumbered : Numbered (σ'.log id)) {n' : Node}
    (hbody : body n' = body { n.appendEntries entries with
      durableLogIndex := (n.appendEntries entries).lastLogIndex }) :
    AtRest config σ' id files { disk with log := disk.log ++ entries } n' := by
  rw [hlog] at hnumbered
  have hholds := h.holds.appendEntries hne hnumbered
  have hrest : AtRest config σ' id files { disk with log := disk.log ++ entries }
      { n.appendEntries entries with
        durableLogIndex := (n.appendEntries entries).lastLogIndex } :=
    { h with
      holds := by
        rw [hlog]
        exact hholds.of_parts rfl
      term_eq := hterm ▸ h.term_eq
      durableLog := rfl }
  exact hrest.of_body hbody

/--
What a Leader knows about its peers while the last entry of its log is on its
way to the disk.
-/
structure Anticipates (config : Config) (σ : Ideal) (ρ : Rounds) (n : Node) : Prop where
  matched : ∀ f, n.matchIndex f ≤ σ.ack f n.term
  next : ∀ f, nextFor n f = n.lastLogIndex + 1 ∨ (nextFor n f ≤ n.lastLogIndex ∧
    σ.Offers LogEntry.term n.term f (nextFor n f - 1)
      (min (max (nextFor n f) n.logBaseIndex) (n.lastLogIndex - 1)))
  snapshot : ∀ f, n.snapshotInFlight f ≠ 0 → 0 < n.logBaseIndex ∧
    σ.Offers LogEntry.term n.term f n.logBaseIndex n.logBaseIndex
  commit_ge : σ.lcommit n.term ≤ n.commitIndex
  ready : n.readReady = true → 0 < σ.lcommit n.term
  reads : ∀ read ∈ n.pendingReads, Reads config ρ n read

theorem Transmits.appended
    (hacts : Acts config id σ
      ((σ.appended id m.term entry).acknowledged id ((σ.log id).length + 1)))
    (leads : σ.lead m.term = some id) (current : σ.term id = m.term)
    (holds : σ.log id = σ.llog m.term) (stamped : entry.term = m.term)
    (hindex : entry.index = (σ.log id).length + 1) (hid : m.id = id)
    (hothers : ∀ peer ∈ m.peers, peer ≠ id) (hholds : m.Holds (σ.log id ++ [entry]))
    (hdurable : m.durableLogIndex ≤ (σ.log id).length) (hbase : m.logBaseIndex ≤ m.commitIndex)
    (hcommit : m.commitIndex ≤ (σ.log id).length)
    (hknown : guarded → σ.Known m.term ((σ.llog m.term).take m.commitIndex))
    (hpeers : guarded → Anticipates config σ ρ m) :
    Transmits config guarded ((σ.appended id m.term entry).acknowledged id
      ((σ.log id).length + 1)) ρ id (logged m entry.index) := by
  have hlast : m.lastLogIndex = (σ.log id).length + 1 := by
    rw [hholds.lastIndex, List.length_append]
    rfl
  generalize hσ' : (σ.appended id m.term entry).acknowledged id ((σ.log id).length + 1) = σ' at *
  have hlog' : σ'.log id = σ.log id ++ [entry] := by
    rw [← hσ', holds]
    simp [Consensus.acknowledged, Consensus.appended]
  have hllog' : σ'.llog m.term = σ.log id ++ [entry] := by
    rw [← hσ', holds]
    simp [Consensus.acknowledged, Consensus.appended]
  have hack' : (σ.log id).length + 1 ≤ σ'.ack id m.term := by
    rw [← hσ']
    simp [Consensus.acknowledged, Consensus.appended, Consensus.put, current]
  have hlcommit' : σ'.lcommit = σ.lcommit := by
    rw [← hσ']
    rfl
  have hown : termAt LogEntry.term (σ'.llog m.term) ((σ.log id).length + 1) = m.term := by
    rw [hllog', termAt]
    simp [stamped]
  refine
    { id_eq := hid
      others := hothers
      holds := by
        rw [hlog']
        exact hholds.of_parts rfl
      durable := by
        simp only [logged, hlast]
        omega
      leads := ⟨hacts.history.lead_eq _ _ leads, hlog'.trans hllog'.symm, ?_⟩
      base_le := hbase
      commit_le := by
        simp only [logged, hlast]
        omega
      known := fun hguarded => ?_
      replicates := fun hguarded => ?_ }
  · have hlength : (σ'.llog m.term).length = (σ.log id).length + 1 := by
      rw [hllog']
      simp
    change lastTerm LogEntry.term (σ'.llog m.term) = m.term
    rw [lastTerm, hlength]
    exact hown
  · change σ'.Known m.term ((σ'.llog m.term).take m.commitIndex)
    rw [hllog', List.take_append_of_le_length hcommit, holds]
    exact (hknown hguarded).extend hacts.history
  · obtain ⟨hmatched, hnext, hsnapshot, hcommitted, hready, hreads⟩ := hpeers hguarded
    refine ⟨?_, fun f => (hmatched f).trans (hacts.history.ack_le _ _), fun f => ?_, fun f hf => ?_,
      by rw [hlcommit']; exact hcommitted, by rw [hlcommit']; exact hready,
      fun read hread => (hreads read hread).of_term rfl⟩
    · change (σ'.llog m.term).length ≤ σ'.ack id m.term
      rw [hllog', List.length_append]
      exact hack'
    · change σ'.Offers LogEntry.term m.term f (nextFor m f - 1)
        (min (max (nextFor m f) m.logBaseIndex) m.lastLogIndex)
      rcases hnext f with hlater | ⟨hle, hoffers⟩
      · refine .inl ?_
        rw [hlater, hlast]
        exact hown
      · refine (hacts.offers hoffers ?_ ?_).mono ?_
        · rw [← holds]
          omega
        · rw [← holds]
          omega
        · omega
    · have hinside : m.logBaseIndex ≤ (σ.llog m.term).length := holds ▸ hbase.trans hcommit
      exact (hsnapshot f hf).imp_right fun hoffers => hacts.offers hoffers hinside hinside

def Preliminary : Action → Prop
  | .becameLeader _ | .resetHeartbeatTimer | .resetCheckQuorumTimer | .proposalAccepted .. => True
  | _ => False

theorem quiet_of_preliminary {actions : List Action}
    (h : ∀ action ∈ actions, Preliminary action) : Quiet actions := by
  intro action hmem
  have hearly := h action hmem
  cases action <;> first | rfl | exact hearly.elim

theorem announces_of_preliminary {action : Action} (h : Preliminary action) :
    Announces config guarded σ ρ id action := by
  cases action <;> trivial

theorem Walk.preliminary {log : List LogEntry} {confirms : ReadID → Nat → Prop}
    {actions : List Action} (h : ∀ action ∈ actions, Preliminary action) (applied : Nat) :
    Walk log confirms applied actions applied := by
  induction actions with
  | nil => rfl
  | cons action actions ih =>
      have hearly := h action (by simp)
      have hrest := ih fun other hmem => h other (by simp [hmem])
      cases action <;> first | exact hrest | exact hearly.elim

theorem Persists.appendOwn (hstored : Stored guarded σ id files disk) (hrefl : Acts config id σ σ)
    (hacts : Acts config id σ σ') (hterm : σ'.term id = σ.term id)
    (hvote : σ'.vote id = σ.vote id) (hlog : σ'.log id = σ.log id ++ [entry])
    (hindex : entry.index = (σ.log id).length + 1) :
    Persists config guarded id files σ disk [.entries [entry]] σ'
      { disk with log := disk.log ++ [entry] } := by
  have hstored' := hstored.appended hacts hterm hvote hlog
  refine .write (fun kept => ?_) ?_ hacts hstored' (.done _ _)
  · cases kept with
    | zero =>
        refine ⟨σ, hrefl, ?_⟩
        simpa [Disk.interrupt] using hstored
    | succ kept =>
        refine ⟨σ', hacts, ?_⟩
        simpa [Disk.interrupt] using hstored'
  · simp [Disk.save, consecutive, hstored.lastIndex, hindex]

theorem Poised.appendOwn (h : Poised config guarded σ ρ id files disk n) {event : Event}
    {σ₀ : Ideal} (m : Node) (before : List Action)
    (hbegins : Begins config guarded id files event σ disk n σ₀)
    (hσterm : σ₀.term = σ.term) (hσlog : σ₀.log = σ.log)
    (leads : σ₀.lead n.term = some id) (holds : σ₀.llog n.term = σ.log id)
    (stamped : entry.term = n.term) (hindex : entry.index = n.lastLogIndex + 1)
    (hbody : body m = body (n.appendEntries [entry])) (hrole : m.role = .leader)
    (hpeers : guarded → Anticipates config σ₀ ρ m)
    (hbefore : ∀ action ∈ before, Preliminary action)
    (haccepts : ∀ proposalID index, .proposalAccepted proposalID index ∈ before →
      n.role = .leader ∧ index = entry.index ∧
        ∀ request, requested event = some request → Matches entry request)
    (helected : n.role ≠ .leader → σ.lead n.term = none ∧ m.pendingReads = [])
    (hreads : ∀ read ∈ m.pendingReads, read.id ∈ n.pendingReads.map PendingRead.id)
    (hstep : n.step event =
      let persisted := m.persistLog [entry]
        { purpose := .persistLeaderEntry, term := m.term, lastIndex := entry.index }
      (persisted.1, before ++ persisted.2)) :
    Achieves config guarded id files ρ event σ disk n := by
  have hvalid₀ := hbegins.acts.valid
  have hterm : m.term = n.term := (congrArg Node.term hbody :)
  have hcommit : m.commitIndex = n.commitIndex := (congrArg Node.commitIndex hbody :)
  have happlied : m.lastApplied = n.lastApplied := (congrArg Node.lastApplied hbody :)
  have hbase : m.logBaseIndex = n.logBaseIndex := (congrArg Node.logBaseIndex hbody :)
  have hdurable : m.durableLogIndex = n.durableLogIndex :=
    (congrArg Node.durableLogIndex hbody :)
  have hpending : m.pendingLog = fun _ => none :=
    (congrArg Node.pendingLog hbody :).trans h.rest.noLog
  have hpeersEq : m.peers = n.peers := (congrArg Node.peers hbody :)
  have hlength : n.lastLogIndex = (σ₀.log id).length := by
    rw [hσlog]
    exact h.rest.holds.lastIndex
  have hindex₀ : entry.index = (σ₀.log id).length + 1 := by rw [hindex, hlength]
  have hcurrent : σ₀.term id = m.term := by rw [hσterm, hterm, h.rest.term_eq]
  have hholds₀ : σ₀.log id = σ₀.llog m.term := by rw [hterm, holds, hσlog]
  have hacts : Acts config id σ₀ ((σ₀.appended id m.term entry).acknowledged id
      ((σ₀.log id).length + 1)) :=
    Acts.appendOwn hvalid₀ hbegins.acts.tidy (hterm ▸ leads) hcurrent hholds₀
      (stamped.trans hterm.symm) hindex₀
  have hlog' : ((σ₀.appended id m.term entry).acknowledged id
      ((σ₀.log id).length + 1)).log id = σ₀.log id ++ [entry] := by
    rw [hholds₀]
    simp [Consensus.acknowledged, Consensus.appended]
  have hnumbered := hacts.tidy.log hacts.valid id
  have hmHolds : m.Holds (σ₀.log id ++ [entry]) := by
    refine holds_of_body ?_ hbody
    rw [hσlog] at hlog' ⊢
    exact h.rest.holds.appendEntries (by simp) (hlog' ▸ hnumbered)
  have hmlast : m.lastLogIndex = entry.index := by
    rw [hmHolds.lastIndex, List.length_append, hindex₀]
    rfl
  have htransmits : Transmits config guarded _ ρ id (logged m entry.index) :=
    Transmits.appended hacts (hterm ▸ leads) hcurrent hholds₀ (stamped.trans hterm.symm) hindex₀
      ((congrArg Node.id hbody :).trans h.rest.id_eq)
      (by rw [hpeersEq]; exact fun peer hpeer => (h.rest.mem_peers.mp hpeer).2) hmHolds
      (by rw [hdurable, h.rest.durableLog, hlength])
      (by rw [hbase, hcommit]; exact h.rest.base_le.trans h.rest.applied_le)
      (by rw [hcommit, h.rest.commit_eq, hσlog]; exact h.stored.commit_le)
      (fun hguarded => by
        rw [← hholds₀, hcommit, h.rest.commit_eq, ← hcurrent]
        exact hbegins.stored.known hguarded) hpeers
  generalize hσ' : (σ₀.appended id m.term entry).acknowledged id ((σ₀.log id).length + 1) = σ' at *
  have hσterm' : σ'.term id = σ₀.term id := by
    rw [← hσ']
    rfl
  have hσvote' : σ'.vote id = σ₀.vote id := by
    rw [← hσ']
    rfl
  obtain ⟨htransmits', hsends, hactions⟩ := htransmits.sendAppendEntries hacts.valid 0 (by simp)
  have hafter : afterLog (logged m entry.index)
      { purpose := .persistLeaderEntry, term := m.term, lastIndex := entry.index } =
        (logged m entry.index).sendAppendEntries 0 := by
    simp only [afterLog]
    rw [if_neg]
    simp [logged, hrole, hmlast]
  have hsaved : Disk.saveAll disk [.entries [entry]] =
      some { disk with log := disk.log ++ [entry] } := by
    simp [Disk.saveAll, Disk.save, consecutive, hbegins.stored.lastIndex, hindex₀]
  have hdrain := drain_log 2 m [entry]
    { purpose := .persistLeaderEntry, term := m.term, lastIndex := entry.index } [] disk
    { disk with log := disk.log ++ [entry] } [] before hpending hsaved
  simp only [List.append_nil, List.nil_append, ne_eq, not_true_eq_false, if_false, hafter]
    at hdrain
  generalize (logged m entry.index).sendAppendEntries 0 = sent at *
  have hrole' : sent.1.role = .leader := by
    rw [hsends]
    exact hrole
  have hreads' : sent.1.pendingReads = m.pendingReads := by
    rw [hsends]
    rfl
  have hterm' : sent.1.term = n.term := by
    rw [hsends]
    exact hterm
  have hmem : ∀ action ∈ before ++ sent.2, Preliminary action ∨
      Plain action ∧ Announces config guarded σ' ρ id action := by
    intro action hmem
    rcases List.mem_append.mp hmem with hmem | hmem
    · exact .inl (hbefore action hmem)
    · exact .inr (hactions action hmem)
  refine ⟨σ₀, hbegins, ?_⟩
  rw [Runtime.step, hstep]
  dsimp only
  rw [drain_quiet _ _ (quiet_of_preliminary hbefore), List.nil_append, hdrain,
    drain_all_quiet _ _ (quiet_of_plain fun action hmem => (hactions action hmem).1)]
  refine Finishes.after (Persists.appendOwn hbegins.stored
    (Acts.refl hvalid₀ hbegins.acts.tidy) hacts hσterm' hσvote' hlog' hindex₀)
    (Finishes.completed (Acts.refl hacts.valid hacts.tidy) ?_)
  exact
    { stored := hbegins.stored.appended hacts hσterm' hσvote' hlog'
      rest := by
        refine h.rest.appended (by rw [hσterm', hσterm]) (by simp) (by rw [hlog', hσlog])
          hnumbered ?_
        have hmax : max m.durableLogIndex entry.index = entry.index := by
          rw [hdurable, h.rest.durableLog, hindex]
          exact max_eq_right (Nat.le_succ _)
        have hlogged : body sent.1 = { body m with durableLogIndex := entry.index } := by
          rw [hsends.body_eq]
          simp only [logged, hmax]
          rfl
        have hlast : (n.appendEntries [entry]).lastLogIndex = entry.index := by
          simp [Node.appendEntries]
        rw [hlogged, hbody, hlast]
        rfl
      campaigns := fun hcandidate => by simp [hrole'] at hcandidate
      leads := fun _ => htransmits'.leads
      replicates := fun hguarded _ => htransmits'.replicates hguarded
      idle := fun hfollower => by
        rw [hreads']
        exact (helected (hfollower.resolve_left (by simp [hrole']))).2
      elected := fun hfollower _ => by
        rw [hterm']
        exact (helected hfollower).1
      sends := fun action haction => by
        rcases hmem action haction with hearly | ⟨-, hannounces⟩
        · exact announces_of_preliminary hearly
        · exact hannounces
      walk := by
        have hsame : sent.1.lastApplied = n.lastApplied := by
          rw [hsends]
          exact happlied
        rw [hsame]
        exact (Walk.preliminary hbefore _).append
          (Walk.plain (fun action haction => (hactions action haction).1) _)
      base_mono := le_rfl
      commit_mono := le_rfl
      keeps := .inr (by
        rw [hlog', hσlog]
        exact (List.take_prefix _ _).trans (List.prefix_append _ _))
      continues := fun _ _ => ⟨hterm', by
        rw [hlog', hσlog]
        exact List.prefix_append _ _⟩
      applies := fun _ _ _ _ => hrole'
      accepts := fun proposalID index haction => by
        rcases List.mem_append.mp haction with haction | haction
        · obtain ⟨hleader, rfl, hmatches⟩ := haccepts proposalID index haction
          have hfound : (σ'.log id)[entry.index - 1]? = some entry := by
            rw [hlog', hindex₀]
            simp
          refine ⟨hleader, hrole', by rw [hindex₀, hσlog], fun request hrequest =>
            ⟨⟨by omega, entry, hfound, hmatches request hrequest⟩, ?_, ?_⟩⟩
          · rw [hindex] at hfound ⊢
            rw [termAt, show (σ'.log id)[n.lastLogIndex]? = some entry from hfound, hterm']
            exact stamped
          · have hsame : sent.1.lastApplied = n.lastApplied := by
              rw [hsends]
              exact happlied
            have hcommitted := h.stored.commit_le
            rw [← h.rest.commit_eq, ← h.rest.holds.lastIndex] at hcommitted
            rw [hsame, hindex]
            exact Nat.lt_succ_of_le (h.rest.applied_le.trans hcommitted)
        · exact (hactions _ haction).1.elim
      begun := fun read hread => .inl (hreads read (hreads' ▸ hread))
      restores := fun index term haction => by
        rcases hmem _ haction with hearly | ⟨hplain, -⟩
        · exact hearly.elim
        · exact hplain.elim }

/-! ## Proposals -/

theorem Replicates.anticipates (h : Replicates config σ ρ id n)
    (hindex : entry.index = n.lastLogIndex + 1) :
    Anticipates config σ ρ (n.appendEntries [entry]) := by
  have hlast : (n.appendEntries [entry]).lastLogIndex = n.lastLogIndex + 1 := by
    simp [Node.appendEntries, hindex]
  refine ⟨h.matched, fun f => ?_, h.snapshot, h.commit_ge, h.ready,
    fun read hread => (h.reads read hread).of_term rfl⟩
  have hoffers := h.next f
  rw [hlast, Nat.add_sub_cancel]
  by_cases hlater : n.nextIndex f = 0 ∨ n.nextIndex f > n.lastLogIndex + 1
  · refine .inl ?_
    rw [nextFor, hlast]
    split
    · rfl
    next hnot =>
      have hnext : (n.appendEntries [entry]).nextIndex f = n.nextIndex f := rfl
      rw [hnext] at hnot ⊢
      omega
  · have hnow : nextFor (n.appendEntries [entry]) f = nextFor n f := by
      have hnext : (n.appendEntries [entry]).nextIndex f = n.nextIndex f := rfl
      rw [nextFor, nextFor, hlast, hnext, if_neg hlater, if_neg (by omega)]
    refine .inr ?_
    rw [hnow]
    exact ⟨nextFor_le n f, hoffers⟩

theorem Poised.proposeEntry (h : Poised config guarded σ ρ id files disk n) {event : Event}
    (proposalID : ProposalID) (entry : LogEntry) (hrole : n.role = .leader)
    (stamped : entry.term = n.term) (hindex : entry.index = n.lastLogIndex + 1)
    (hmatches : ∀ request, requested event = some request → Matches entry request)
    (hstep : n.step event = n.proposeEntry proposalID entry) :
    Achieves config guarded id files ρ event σ disk n := by
  have hleads := h.leads hrole
  have hbegins : Begins config guarded id files event σ disk n σ := by
    refine ⟨h.refl, h.stored, fun hfollower => absurd hrole hfollower, fun _ _ _ => ?_⟩
    rw [hstep]
    exact le_max_left _ _
  refine h.appendOwn (n.appendEntries [entry]) [.proposalAccepted proposalID entry.index] hbegins
    rfl rfl hleads.leads hleads.holds.symm stamped hindex rfl hrole
    (fun hguarded => (h.replicates hguarded hrole).anticipates hindex) (by simp [Preliminary]) ?_
    (fun hfollower => absurd hrole hfollower) (fun read hread => List.mem_map_of_mem hread) hstep
  intro other index hmem
  obtain ⟨-, rfl⟩ : other = proposalID ∧ index = entry.index := by simpa using hmem
  exact ⟨hrole, rfl, hmatches⟩

theorem Poised.refuseProposal (h : Poised config guarded σ ρ id files disk n) {event : Event}
    (proposalID : ProposalID) (hstep : n.step event = (n, [.proposalRejected proposalID n.leaderID])) :
    Achieves config guarded id files ρ event σ disk n :=
  h.unchanged _ hstep (by simp [Plain]) (by simp [Announces])

theorem Poised.proposeSession (h : Poised config guarded σ ρ id files disk n)
    (proposal : ProposeSession) :
    Achieves config guarded id files ρ (.proposeSession proposal) σ disk n := by
  by_cases hrole : n.role = .leader
  · by_cases htype : proposal.type ≠ .openSession ∧ proposal.type ≠ .closeSession
    · refine h.unchanged [] ?_ (by simp) (by simp)
      simp only [Node.step, Node.proposeSession]
      rw [if_neg (not_not.mpr hrole), if_pos htype]
    · refine h.proposeEntry proposal.proposalID
        { index := n.lastLogIndex + 1
          term := n.term
          type := proposal.type
          sessionID := proposal.sessionID } hrole rfl rfl (by simp [requested, Matches]) ?_
      simp only [Node.step, Node.proposeSession]
      rw [if_neg (not_not.mpr hrole), if_neg htype]
  · refine h.refuseProposal proposal.proposalID ?_
    simp only [Node.step, Node.proposeSession, ne_eq, hrole, not_false_eq_true, if_true]

theorem Poised.proposeSet (h : Poised config guarded σ ρ id files disk n)
    (proposal : ProposeSet) :
    Achieves config guarded id files ρ (.proposeSet proposal) σ disk n := by
  by_cases hrole : n.role = .leader
  · refine h.proposeEntry proposal.proposalID
      { index := n.lastLogIndex + 1
        term := n.term
        type := .set
        sessionID := proposal.sessionID
        sequence := proposal.sequence
        key := proposal.key
        value := proposal.value } hrole rfl rfl
      (by simp [requested, Matches, IsMutation]) ?_
    simp only [Node.step, Node.proposeSet]
    rw [if_neg (not_not.mpr hrole)]
  · refine h.refuseProposal proposal.proposalID ?_
    simp only [Node.step, Node.proposeSet, ne_eq, hrole, not_false_eq_true, if_true]

theorem Poised.proposeDelete (h : Poised config guarded σ ρ id files disk n)
    (proposal : ProposeDelete) :
    Achieves config guarded id files ρ (.proposeDelete proposal) σ disk n := by
  by_cases hrole : n.role = .leader
  · refine h.proposeEntry proposal.proposalID
      { index := n.lastLogIndex + 1
        term := n.term
        type := .delete
        sessionID := proposal.sessionID
        sequence := proposal.sequence
        key := proposal.key } hrole rfl rfl
      (by simp [requested, Matches, IsMutation]) ?_
    simp only [Node.step, Node.proposeDelete]
    rw [if_neg (not_not.mpr hrole)]
  · refine h.refuseProposal proposal.proposalID ?_
    simp only [Node.step, Node.proposeDelete, ne_eq, hrole, not_false_eq_true, if_true]

/-! ## Elections won -/

theorem Poised.becomeLeader (h : Poised config guarded σ ρ id files disk n) {event : Event}
    {m : Node} (hbody : body m = body n) (hreads : m.pendingReads = [])
    (hrole : n.role = .candidate) (hcampaigns : Campaigns config σ id m)
    (hwon : m.quorum ≤ m.votes.card) (hstep : n.step event = m.becomeLeader) :
    Achieves config guarded id files ρ event σ disk n := by
  have hrest := h.rest.of_body hbody
  have hterm : m.term = n.term := (congrArg Node.term hbody :)
  have hlast : m.lastLogIndex = n.lastLogIndex := (congrArg Node.lastLogIndex hbody :)
  obtain ⟨hvotes, hown, hcand, hfresh⟩ := hcampaigns
  have henough : config.Quorum m.votes := hrest.quorum h.member (fun f hf => (hvotes f hf).1) hwon
  have hnone := h.valid.inv.lead_none_of_elect config.quorum_inter henough
    (fun f hf => (hvotes f hf).2) hfresh
  have hlcommit : σ.lcommit m.term = 0 := by
    have hle := h.valid.inv.lcommit_le m.term
    rw [(h.valid.inv.lead_none _ hnone).1] at hle
    exact Nat.le_zero.mp hle
  have hacts : Acts config id σ (σ.elected id m.term m.votes) := by
    refine { Consensus.ActsAt.elect config.quorum_inter h.valid henough
      (fun f hf => (hvotes f hf).2) hown hfresh with
        tidy := ⟨fun T => ?_, h.tidy.voted⟩ }
    by_cases hT : T = m.term
    · subst hT
      simp only [Consensus.elected, Function.update_self, hcand]
      exact h.tidy.log h.valid id
    · simp only [Consensus.elected, Function.update_of_ne hT]
      exact h.tidy.numbered T
  generalize hentry : ({ index := m.lastLogIndex + 1, term := m.term, type := .noOp } : LogEntry) =
    entry at *
  generalize hm₁ : ({ m with
    role := .leader
    leaderID := m.id
    activePeers := ∅
    matchIndex := fun _ => 0
    appendInFlight := fun _ => {}
    snapshotInFlight := fun _ => 0
    readReady := false } : Node).appendEntries [entry] = m₁
  generalize hm₂ : ({ m₁ with
    nextIndex := fun peer => if peer ∈ m₁.peers then m₁.lastLogIndex + 1 else 0 } : Node) = m₂
  have hstep₂ : n.step event =
      let persisted := m₂.persistLog [entry]
        { purpose := .persistLeaderEntry, term := m₂.term, lastIndex := entry.index }
      (persisted.1, [.becameLeader m₂.term, .resetHeartbeatTimer, .resetCheckQuorumTimer] ++
        persisted.2) := by
    rw [hstep, ← hm₂, ← hm₁, ← hentry]
    rfl
  have hbody₂ : body m₂ = body (n.appendEntries [entry]) := by
    have hlog : n.log = m.log := (congrArg Node.log hbody.symm :)
    have hm : body m₂ = { body m with
        log := m.log ++ [entry]
        lastLogIndex := ((m.log ++ [entry]).getLast?).elim 0 LogEntry.index
        lastLogTerm := ((m.log ++ [entry]).getLast?).elim 0 LogEntry.term } := by
      rw [← hm₂, ← hm₁]
      rfl
    rw [hm, hbody, ← hlog]
    rfl
  have hterm₂ : m₂.term = n.term := (congrArg Node.term hbody₂ :)
  have hrole₂ : m₂.role = .leader := by
    rw [← hm₂, ← hm₁]
    rfl
  have hreads₂ : m₂.pendingReads = [] := by
    rw [← hm₂, ← hm₁]
    exact hreads
  have hbegins : Begins config guarded id files event σ disk n (σ.elected id m.term m.votes) := by
    refine ⟨hacts, h.stored.kept hacts rfl rfl rfl, fun _ _ => ?_, fun _ hleader _ => ?_⟩
    · rw [hstep₂]
      change (σ.elected id m.term m.votes).lead m₂.term = some id
      simp [Consensus.elected, hterm₂, hterm]
    · simp [hrole] at hleader
  refine h.appendOwn m₂ [.becameLeader m₂.term, .resetHeartbeatTimer, .resetCheckQuorumTimer]
    hbegins rfl rfl ?_ ?_ ?_ ?_ hbody₂ hrole₂ (fun hguarded => ?_) (by simp [Preliminary]) (by simp)
    (fun _ => ⟨hterm ▸ hnone, hreads₂⟩) (by simp [hreads₂]) hstep₂
  · simp [Consensus.elected, hterm]
  · simp [Consensus.elected, ← hterm, hcand]
  · rw [← hentry]
    exact hterm
  · rw [← hentry, ← hlast]
  · have hnext : ∀ f, nextFor m₂ f = m₂.lastLogIndex + 1 := by
      intro f
      have hindex : m₂.nextIndex f = m₂.lastLogIndex + 1 ∨ m₂.nextIndex f = 0 := by
        rw [← hm₂]
        dsimp only
        split
        · exact .inl rfl
        · exact .inr rfl
      unfold nextFor
      split <;> omega
    refine ⟨fun f => ?_, fun f => .inl (hnext f), fun f hf => ?_, ?_, fun hready => ?_,
      by simp [hreads₂]⟩
    · rw [← hm₂, ← hm₁]
      exact Nat.zero_le _
    · rw [← hm₂, ← hm₁] at hf
      exact absurd rfl hf
    · change σ.lcommit m₂.term ≤ _
      rw [hterm₂, ← hterm, hlcommit]
      exact Nat.zero_le _
    · rw [← hm₂, ← hm₁] at hready
      exact absurd hready Bool.false_ne_true

theorem Poised.voteResponse (h : Poised config guarded σ ρ id files disk n) {r : VoteResponse}
    (htrue : TrueVoteResponse config σ id r) :
    Achieves config guarded id files ρ (.voteResponse r) σ disk n := by
  by_cases hnewer : n.term < r.term
  · refine h.stepDown hnewer ?_
    simp only [Node.step, Node.handleVoteResponse, if_pos hnewer]
  by_cases hignored : n.role ≠ .candidate ∨ r.term ≠ n.term ∨ r.granted = false
  · refine h.unchanged [] ?_ (by simp) (by simp)
    simp only [Node.step, Node.handleVoteResponse, if_neg hnewer, if_pos hignored]
  obtain ⟨hrole, hterm, hgranted⟩ : n.role = .candidate ∧ r.term = n.term ∧ r.granted = true := by
    simpa only [not_or, not_not, Bool.not_eq_false] using hignored
  have hidle := h.idle (by simp [hrole])
  generalize hm : ({ n with votes := insert r.sender n.votes } : Node) = m
  have hbody : body m = body n := by rw [← hm]; rfl
  have hreads : m.pendingReads = [] := by rw [← hm]; exact hidle
  have hrole₀ : m.role = .candidate := by rw [← hm]; exact hrole
  have hcampaigns : Campaigns config σ id m := by
    obtain ⟨hvotes, hown, hcand, hfresh⟩ := h.campaigns hrole
    rw [← hm]
    refine ⟨fun f hf => ?_, hown, hcand, hfresh⟩
    rcases Finset.mem_insert.mp hf with rfl | hf
    · exact ⟨htrue.member, hterm ▸ htrue.granted hgranted⟩
    · exact hvotes f hf
  have hstep : n.step (.voteResponse r) =
      if m.votes.card < m.quorum then (m, []) else m.becomeLeader := by
    simp only [Node.step, Node.handleVoteResponse, if_neg hnewer, if_neg hignored, ← hm]
  split at hstep
  · exact Achieves.plain _ _ h.refl h.stored h.rest hstep hbody (by simp) (by simp)
      (by simp [hrole₀]) (fun _ => hcampaigns) h.leads (by simp [hrole₀]) (fun _ => hreads)
      (by simp [hreads])
  next hwon => exact h.becomeLeader hbody hreads hrole hcampaigns (Nat.not_lt.mp hwon) hstep

end Appending

end QuorumKV.Cluster
