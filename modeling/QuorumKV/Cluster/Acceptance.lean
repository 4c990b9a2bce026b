import QuorumKV.Cluster.Replication

/-!
# Writing a Leader's entries

The calls an accepted request makes on the disk, and the consensus states that
explain them.  A truncation and every front of the append leave a front of the
Leader's log that the Follower may hold, so a crash between any two of them is
harmless.
-/

namespace QuorumKV.Cluster

open Raft QuorumKV.Runtime Session Foundation

section Steps

variable {config : Config} {id : NodeID} {σ : Ideal}
  (hvalid : σ.Valid LogEntry.term config.Quorum) (htidy : Tidy config σ)

include hvalid htidy

theorem Acts.accept {count goal : Nat} (may : σ.MayAccept id count goal) :
    Acts config id σ (σ.accepted id count) :=
  { Consensus.ActsAt.accept config.quorum_inter hvalid may with
    tidy := ⟨htidy.numbered, htidy.voted⟩ }

theorem Acts.acknowledge {count : Nat} (led : σ.lead (σ.term id) ≠ none)
    (inside : count ≤ (σ.llog (σ.term id)).length)
    (holds : (σ.llog (σ.term id)).take count <+: σ.log id) :
    Acts config id σ (σ.acknowledged id count) :=
  { Consensus.ActsAt.acknowledge config.quorum_inter hvalid led inside holds with
    tidy := ⟨htidy.numbered, htidy.voted⟩ }

end Steps

section Writing

variable {config : Config} {guarded : Prop} {σ σ' : Ideal} {ρ : Rounds} {id : NodeID}
  {files : List Snapshot.State} {disk disk' : Disk} {n : Node} {entries : List LogEntry}

theorem Persists.saveAll {writes : List Write}
    (h : Persists config guarded id files σ disk writes σ' disk') :
    Disk.saveAll disk writes = some disk' := by
  induction h with
  | done => rfl
  | write interrupted saved acts stored rest ih =>
      simp only [Disk.saveAll, saved, Option.bind_some, ih]

theorem Stored.truncated (h : Stored guarded σ id files disk) (hacts : Acts config id σ σ')
    (hterm : σ'.term id = σ.term id) (hvote : σ'.vote id = σ.vote id) {count : Nat}
    (hlog : σ'.log id = (σ.log id).take count) (hcommit : disk.commitIndex ≤ count) :
    Stored guarded σ' id files { disk with log := disk.log.take (count - disk.snapshotIndex) } := by
  have hbase := h.base_le.trans hcommit
  refine ⟨hterm ▸ h.term_eq, ?_, h.base_le, ?_, ?_, ?_, h.filed, fun hguarded => ?_⟩
  · rw [hterm, hvote]
    exact h.vote_eq
  · rw [hlog, List.length_take]
    exact le_min hcommit h.commit_le
  · rw [hlog, termAt_take hbase]
    exact h.baseTerm
  · rw [hlog, h.log_eq, List.drop_take]
  · rw [hlog, List.take_take, min_eq_left hcommit, hterm]
    exact (h.known hguarded).extend hacts.history

theorem AtRest.truncated (h : AtRest config σ id files disk n) (hterm : σ'.term id = σ.term id)
    {count : Nat} (hlog : σ'.log id = (σ.log id).take count) (hcommit : n.commitIndex ≤ count)
    (hle : count ≤ (σ.log id).length) {disk' : Disk} (hhard : disk'.hardState = disk.hardState)
    (hindex : disk'.commitIndex = disk.commitIndex) :
    AtRest config σ' id files disk' (n.truncateLog (count + 1)) := by
  have hbase := (h.base_le.trans h.applied_le).trans hcommit
  have hholds : (n.truncateLog (count + 1)).Holds ((σ.log id).take count) :=
    h.holds.truncateLog (Nat.lt_succ_of_le hbase) (Nat.succ_le_succ hle)
  exact
    { h with
      holds := hlog ▸ hholds
      term_eq := hterm ▸ h.term_eq
      vote_eq := hhard ▸ h.vote_eq
      commit_eq := hindex ▸ h.commit_eq
      durableLog := by
        simp only [Node.truncateLog, h.durableLog, h.holds.lastIndex]
        omega }

theorem consecutive_of_numbered {log : List LogEntry} (hnumbered : Numbered (log ++ entries)) :
    consecutive log.length entries = true := by
  induction entries generalizing log with
  | nil => rfl
  | cons entry entries ih =>
      have hindex : entry.index = log.length + 1 := hnumbered log.length entry (by simp)
      have hrest : consecutive (log ++ [entry]).length entries = true :=
        ih (by simpa using hnumbered)
      rw [List.length_append, List.length_singleton] at hrest
      simp [consecutive, hindex, hrest]

theorem Persists.takeOver (hstored : Stored guarded σ id files disk)
    (hvalid : σ.Valid LogEntry.term config.Quorum) (htidy : Tidy config σ)
    (hled : σ.lead (σ.term id) ≠ none) {shared goal : Nat} (hlt : shared < goal)
    (hgoal : goal ≤ (σ.llog (σ.term id)).length)
    (hlog : σ.log id = (σ.llog (σ.term id)).take shared)
    (hentries : entries = ((σ.llog (σ.term id)).drop shared).take (goal - shared)) :
    Persists config guarded id files σ disk [.entries entries] (σ.accepted id goal)
      { disk with log := disk.log ++ entries } := by
  have hfront : ∀ count, shared ≤ count → count ≤ goal →
      Acts config id σ (σ.accepted id count) ∧
      (σ.accepted id count).log id = σ.log id ++ entries.take (count - shared) := by
    intro count hle hcount
    refine ⟨Acts.accept hvalid htidy (Consensus.mayAccept_of_shared hled hgoal hlt hle hcount
      fun other hother hheld => Consensus.shared_of_take hlog (hother.trans hgoal) hheld), ?_⟩
    simp only [Consensus.accepted, Function.update_self]
    rw [hlog, hentries, List.take_take, min_eq_left (by omega)]
    conv_lhs => rw [show count = shared + (count - shared) by omega, List.take_add]
  have hlength : entries.length = goal - shared := by
    rw [hentries, List.length_take, List.length_drop]
    omega
  obtain ⟨hacts, hfinal⟩ := hfront goal hlt.le le_rfl
  rw [List.take_of_length_le hlength.le] at hfinal
  refine .write (fun kept => ?_) ?_ hacts (hstored.appended hacts rfl rfl hfinal) (.done _ _)
  · obtain ⟨hacts, hkept⟩ := hfront (shared + min kept entries.length) (by omega) (by omega)
    rw [Nat.add_sub_cancel_left, ← List.take_eq_take_min] at hkept
    exact ⟨_, hacts, hstored.appended hacts rfl rfl hkept⟩
  · have hnumbered := hacts.tidy.log hacts.valid id
    rw [hfinal] at hnumbered
    have hne : entries ≠ [] := by
      rw [← List.length_pos_iff, hlength]
      omega
    simp [Disk.save, hne, hstored.lastIndex, consecutive_of_numbered hnumbered]

end Writing

/-! ## The end of an accepted request -/

section Accepting

variable {config : Config} {guarded : Prop} {σ σ₀ σ₁ σ₂ : Ideal} {ρ : Rounds} {id : NodeID}
  {files : List Snapshot.State} {disk disk₀ disk₁ : Disk} {n n₁ : Node} {event : Event} {T : Nat}
  {leader : NodeID} {r : AppendEntries}

theorem Follower.kept (h : Follower config guarded σ₁ ρ id files disk₁ n₁ T leader)
    (hacts : Acts config id σ₁ σ₂) (hterm : σ₂.term id = σ₁.term id)
    (hvote : σ₂.vote id = σ₁.vote id) (hlog : σ₂.log id = σ₁.log id) :
    Follower config guarded σ₂ ρ id files disk₁ n₁ T leader :=
  { h with
    valid := hacts.valid
    tidy := hacts.tidy
    rounds := fun hguarded => (h.rounds hguarded).mono hacts
    stored := h.stored.kept hacts hterm hvote hlog
    rest := { h.rest with
      holds := hlog ▸ h.rest.holds
      term_eq := hterm ▸ h.rest.term_eq }
    lead := hacts.history.lead_eq _ _ h.lead }

theorem Follower.acknowledge (h : Follower config guarded σ₁ ρ id files disk₁ n₁ T leader)
    (hfollows : σ₁.Follows T id) :
    Acts config id σ₁ (σ₁.acknowledged id n₁.lastLogIndex) := by
  have hterm : σ₁.term id = T := by rw [← h.rest.term_eq, h.term_eq]
  have hfront : σ₁.log id <+: σ₁.llog T := by
    rcases hfollows with hlt | ⟨-, hfront⟩
    · omega
    · exact hfront
  rw [h.rest.holds.lastIndex]
  refine Acts.acknowledge h.valid h.tidy ?_ ?_ ?_
  · rw [hterm, h.lead]
    simp
  · rw [hterm]
    exact hfront.length_le
  · rw [hterm, ← List.prefix_iff_eq_take.mp hfront]

theorem Follower.succeed (h : Follower config guarded σ₁ ρ id files disk₁ n₁ r.term r.sender)
    (hgains : Gains id σ disk n σ₁ disk₁ n₁) (hleader : guarded → n.role ≠ .leader)
    (htrue : TrueAppend guarded σ₁ ρ id r) (hfollows : guarded → σ₁.Follows r.term id)
    (fuel : Nat) (writes : List Write) :
    Finishes config guarded id files ρ event σ disk n writes σ₁ disk₁
      (drain (fuel + 1)
        { core := (n₁.advanceFollowerCommit r.leaderCommit
            (n₁.appendEntriesResponse r.sender r.requestID true n₁.lastLogIndex 0 0 r.readID)).1
          disk := disk₁, writes
          emitted := [.resetElectionTimer] }
        (n₁.advanceFollowerCommit r.leaderCommit
          (n₁.appendEntriesResponse r.sender r.requestID true n₁.lastLogIndex 0 0 r.readID)).2) := by
  by_cases hguarded : guarded
  · have hacts := h.acknowledge (hfollows hguarded)
    have hfollower := h.kept hacts rfl rfl rfl
    have htrue' := htrue.mono hacts (.refl σ₁ id ρ)
    have hterm : σ₁.term id = r.term := by rw [← h.rest.term_eq, h.term_eq]
    have hfollows' := hacts.follows (hfollows hguarded)
    refine Finishes.before hacts (hfollower.advance ⟨hgains.applied_eq, hgains.snapshot_eq,
      hgains.commit_eq, hgains.keeps⟩ hleader (fun _ => ?_) ?_ fuel writes)
    · refine (htrue'.known hguarded).front ?_
      have hfront : σ₁.log id <+: σ₁.llog r.term := by
        rcases hfollows hguarded with hlt | ⟨-, hfront⟩
        · omega
        · exact hfront
      change (σ₁.log id).take (min r.leaderCommit (σ₁.log id).length) <+:
        (σ₁.llog r.term).take r.leaderCommit
      rw [← take_eq_take hfront (min_le_right _ _)]
      exact take_prefix_take (min_le_left _ _)
    · refine hfollower.announces htrue' (fun _ _ => ⟨?_, hfollows'⟩) (by simp)
      simp only [Consensus.acknowledged, hterm, Consensus.put_same]
      exact le_max_right _ _
  · have hfalse : ∀ {p : Prop}, guarded → p := fun hcontra => absurd hcontra hguarded
    exact h.advance hgains hleader hfalse (h.announces htrue hfalse (by simp)) fuel writes

theorem Follower.truncate (h : Follower config guarded σ₁ ρ id files disk₁ n₁ T leader)
    {shared goal : Nat} (hlt : shared < goal) (hgoal : goal ≤ (σ₁.llog T).length)
    (hshared : shared < (σ₁.log id).length)
    (htake : (σ₁.log id).take shared = (σ₁.llog T).take shared)
    (hcommit : n₁.commitIndex ≤ shared)
    (hkeeps : ∀ other ≤ goal, (σ₁.llog T).take other <+: σ₁.log id → other ≤ shared) :
    Persists config guarded id files σ₁ disk₁ [.truncation (shared + 1)] (σ₁.accepted id shared)
        { disk₁ with log := disk₁.log.take (shared - disk₁.snapshotIndex) } ∧
      Follower config guarded (σ₁.accepted id shared) ρ id files
        { disk₁ with log := disk₁.log.take (shared - disk₁.snapshotIndex) }
        (n₁.truncateLog (shared + 1)) T leader := by
  have hterm : T = σ₁.term id := by rw [← h.rest.term_eq, h.term_eq]
  have hlead := h.lead
  subst hterm
  have hacts : Acts config id σ₁ (σ₁.accepted id shared) :=
    Acts.accept h.valid h.tidy (Consensus.mayAccept_of_shared (by simp [hlead]) hgoal hlt le_rfl
      hlt.le hkeeps)
  have hlog : (σ₁.accepted id shared).log id = (σ₁.log id).take shared := by
    rw [htake]
    simp [Consensus.accepted]
  have hstored := h.stored.truncated hacts rfl rfl hlog (h.rest.commit_eq ▸ hcommit)
  have hsame : (σ₁.accepted id shared).term id = σ₁.term id := rfl
  have hrest : AtRest config (σ₁.accepted id shared) id files
      { disk₁ with log := disk₁.log.take (shared - disk₁.snapshotIndex) }
      (n₁.truncateLog (shared + 1)) :=
    h.rest.truncated hsame hlog hcommit hshared.le rfl rfl
  refine ⟨.single h.stored (Acts.refl h.valid h.tidy) (fun _ => rfl) ?_ hacts hstored, ?_⟩
  · simp only [Disk.save]
    rw [if_neg, Nat.sub_right_comm, Nat.add_sub_cancel]
    rw [h.stored.lastIndex, ← h.rest.commit_eq]
    omega
  · exact
      { h with
        valid := hacts.valid
        tidy := hacts.tidy
        rounds := fun hguarded => (h.rounds hguarded).mono hacts
        stored := hstored
        rest := hrest }

theorem Follower.takeOver (h : Follower config guarded σ₁ ρ id files disk₁ n₁ T leader)
    {shared goal : Nat} (hlt : shared < goal) (hgoal : goal ≤ (σ₁.llog T).length)
    (hlog : σ₁.log id = (σ₁.llog T).take shared) {entries : List LogEntry}
    (hentries : entries = ((σ₁.llog T).drop shared).take (goal - shared)) :
    Persists config guarded id files σ₁ disk₁ [.entries entries] (σ₁.accepted id goal)
        { disk₁ with log := disk₁.log ++ entries } ∧
      Follower config guarded (σ₁.accepted id goal) ρ id files
        { disk₁ with log := disk₁.log ++ entries }
        (logged (n₁.appendEntries entries) (n₁.appendEntries entries).lastLogIndex) T leader := by
  have hterm : T = σ₁.term id := by rw [← h.rest.term_eq, h.term_eq]
  have hlead := h.lead
  subst hterm
  have hpersists : Persists config guarded id files σ₁ disk₁ [.entries entries]
      (σ₁.accepted id goal) { disk₁ with log := disk₁.log ++ entries } :=
    .takeOver h.stored h.valid h.tidy (by simp [hlead]) hlt hgoal hlog hentries
  have hacts := hpersists.acts (Acts.refl h.valid h.tidy)
  have hlog' : (σ₁.accepted id goal).log id = σ₁.log id ++ entries := by
    simp only [Consensus.accepted, Function.update_self]
    rw [hlog, hentries]
    conv_lhs => rw [show goal = shared + (goal - shared) by omega, List.take_add]
  have hne : entries ≠ [] := by
    rw [hentries, Ne, List.take_eq_nil_iff, List.drop_eq_nil_iff]
    omega
  have hnumbered := hacts.tidy.log hacts.valid id
  have hlast : n₁.durableLogIndex ≤ (n₁.appendEntries entries).lastLogIndex := by
    rw [(h.rest.holds.appendEntries hne (hlog' ▸ hnumbered)).lastIndex, h.rest.durableLog,
      h.rest.holds.lastIndex, List.length_append]
    exact Nat.le_add_right _ _
  have hbody : body (logged (n₁.appendEntries entries) (n₁.appendEntries entries).lastLogIndex) =
      body { n₁.appendEntries entries with
        durableLogIndex := (n₁.appendEntries entries).lastLogIndex } :=
    congrArg (fun durable => body { n₁.appendEntries entries with durableLogIndex := durable })
      (max_eq_right hlast)
  have hsame : (σ₁.accepted id goal).term id = σ₁.term id := rfl
  have hrest : AtRest config (σ₁.accepted id goal) id files
      { disk₁ with log := disk₁.log ++ entries }
      (logged (n₁.appendEntries entries) (n₁.appendEntries entries).lastLogIndex) :=
    h.rest.appended hsame hne hlog' hnumbered hbody
  refine ⟨hpersists, ?_⟩
  exact
    { h with
      valid := hacts.valid
      tidy := hacts.tidy
      rounds := fun hguarded => (h.rounds hguarded).mono hacts
      stored := h.stored.appended hacts rfl rfl hlog'
      rest := hrest }

def awaiting (r : AppendEntries) (truncateFrom lastIndex : Nat) : PendingLogPersistence :=
  { purpose := .persistFollowerAppend
    term := r.term
    leader := r.sender
    truncateFrom := truncateFrom
    lastIndex := lastIndex
    leaderCommit := r.leaderCommit
    readID := r.readID
    requestID := r.requestID }

theorem Follower.append (h : Follower config guarded σ₁ ρ id files disk₁ n₁ r.term r.sender)
    (hgains : Gains id σ disk n σ₁ disk₁ n₁) (hleader : guarded → n.role ≠ .leader)
    (htrue : TrueAppend guarded σ₁ ρ id r) {shared goal truncateFrom : Nat}
    {entries : List LogEntry} (hlt : shared < goal) (hgoal : goal ≤ (σ₁.llog r.term).length)
    (hlog : σ₁.log id = (σ₁.llog r.term).take shared)
    (hentries : entries = ((σ₁.llog r.term).drop shared).take (goal - shared))
    (hdropped : Persists config guarded id files σ₀ disk₀
      (if truncateFrom ≠ 0 then [.truncation truncateFrom] else []) σ₁ disk₁)
    (fuel : Nat) (writes : List Write) :
    Finishes config guarded id files ρ event σ disk n writes σ₀ disk₀
      (drain (fuel + 2)
        { core := ((n₁.appendEntries entries).persistLog entries
            (awaiting r truncateFrom (n₁.appendEntries entries).lastLogIndex)).1
          disk := disk₀, writes
          emitted := [.resetElectionTimer] }
        ((n₁.appendEntries entries).persistLog entries
          (awaiting r truncateFrom (n₁.appendEntries entries).lastLogIndex)).2) := by
  obtain ⟨hpersists, hfollower⟩ := h.takeOver hlt hgoal hlog hentries
  have hacts := hpersists.acts (Acts.refl h.valid h.tidy)
  have hlog' : (σ₁.accepted id goal).log id = (σ₁.llog r.term).take goal := by
    have hterm : σ₁.term id = r.term := by rw [← h.rest.term_eq, h.term_eq]
    simp [Consensus.accepted, hterm]
  have hkeeps : (σ.log id).take disk.commitIndex <+: (σ₁.accepted id goal).log id := by
    rw [hlog']
    exact (hlog ▸ hgains.keeps).trans (take_prefix_take hlt.le)
  have hfollows : (σ₁.accepted id goal).Follows r.term id := by
    refine .inr ⟨by rw [← hfollower.rest.term_eq, hfollower.term_eq], ?_⟩
    rw [hlog']
    exact List.take_prefix _ _
  have hdrain := drain_log (fuel + 1) (n₁.appendEntries entries) entries
    (awaiting r truncateFrom (n₁.appendEntries entries).lastLogIndex) [] disk₀ _ writes
    [.resetElectionTimer] h.rest.noLog (hdropped.trans hpersists).saveAll
  generalize hm : logged (n₁.appendEntries entries) (n₁.appendEntries entries).lastLogIndex = m at *
  have hlast : m.lastLogIndex = (n₁.appendEntries entries).lastLogIndex := by
    rw [← hm]
    rfl
  have hafter : afterLog m (awaiting r truncateFrom (n₁.appendEntries entries).lastLogIndex) =
      m.advanceFollowerCommit r.leaderCommit
        (m.appendEntriesResponse r.sender r.requestID true m.lastLogIndex 0 0 r.readID) := by
    rw [hlast]
    exact if_neg (by simp [awaiting, hfollower.term_eq, hfollower.role, hfollower.leaderID])
  have happlied : m.lastApplied = n.lastApplied := by
    rw [← hm]
    exact hgains.applied_eq
  have hlogged : logged (n₁.appendEntries entries)
      (awaiting r truncateFrom (n₁.appendEntries entries).lastLogIndex).lastIndex = m := hm
  rw [List.append_nil, List.nil_append, hlogged, hafter] at hdrain
  rw [hdrain]
  exact Finishes.after (hdropped.trans hpersists)
    (hfollower.succeed ⟨happlied, hgains.snapshot_eq, hgains.commit_eq, hkeeps⟩ hleader
      (htrue.mono hacts (.refl σ₁ id ρ)) (fun _ => hfollows) fuel _)

end Accepting

/-! ## A request for a Follower -/

section Requests

variable {config : Config} {guarded : Prop} {σ σ₁ : Ideal} {ρ : Rounds} {id : NodeID}
  {files : List Snapshot.State} {disk disk₁ : Disk} {n n₁ : Node} {event : Event}
  {r : AppendEntries}

theorem TrueAppend.drop_eq (h : TrueAppend guarded σ ρ id r) (offset : Nat) :
    r.entries.drop offset = ((σ.llog r.term).drop (r.prevLogIndex + offset)).take
      (r.prevLogIndex + r.entries.length - (r.prevLogIndex + offset)) := by
  conv_lhs => rw [h.entries_eq]
  rw [List.drop_take, List.drop_drop, Nat.add_sub_add_left]

theorem applyLoop_frame (count : Nat) (m : Node) :
    (m.applyLoop count).1.role = m.role ∧ (m.applyLoop count).1.term = m.term ∧
      (m.applyLoop count).1.votedFor = m.votedFor ∧
      (m.applyLoop count).1.pendingHardState = m.pendingHardState := by
  induction count generalizing m with
  | zero => exact ⟨rfl, rfl, rfl, rfl⟩
  | succ count ih =>
      unfold Node.applyLoop
      split
      · exact ⟨rfl, rfl, rfl, rfl⟩
      · exact ih (advance m _)

theorem acceptEntries_frame (m : Node) (r : AppendEntries) (hrole : m.role = .follower)
    (newEntries : List LogEntry) (truncateFrom : Nat) :
    (m.acceptEntries r newEntries truncateFrom).1.role = .follower ∧
      (m.acceptEntries r newEntries truncateFrom).1.term = m.term ∧
      (m.acceptEntries r newEntries truncateFrom).1.votedFor = m.votedFor ∧
      (m.acceptEntries r newEntries truncateFrom).1.pendingHardState = m.pendingHardState := by
  rw [← hrole]
  unfold Node.acceptEntries
  split
  · split <;> exact ⟨rfl, rfl, rfl, rfl⟩
  · split
    · exact ⟨rfl, rfl, rfl, rfl⟩
    · unfold Node.advanceFollowerCommit
      dsimp only
      split
      · exact ⟨rfl, rfl, rfl, rfl⟩
      · unfold Node.applyThrough
        split
        · exact ⟨rfl, rfl, rfl, rfl⟩
        · exact applyLoop_frame _ m

theorem Follower.accept (h : Follower config guarded σ₁ ρ id files disk₁ n₁ r.term r.sender)
    (hgains : Gains id σ disk n σ₁ disk₁ n₁) (hleader : guarded → n.role ≠ .leader)
    (htrue : TrueAppend guarded σ₁ ρ id r)
    (hmatches : n₁.matchesAt r.prevLogIndex r.prevLogTerm = true) {newEntries : List LogEntry}
    {truncateFrom : Nat}
    (hscan : n₁.Scan (r.prevLogIndex + 1) r.entries (some (newEntries, truncateFrom)))
    (fuel : Nat) (writes : List Write) :
    Finishes config guarded id files ρ event σ disk n writes σ₁ disk₁
      (drain (fuel + 2)
        { core := (n₁.acceptEntries r newEntries truncateFrom).1, disk := disk₁, writes
          emitted := [.resetElectionTimer] }
        (n₁.acceptEntries r newEntries truncateFrom).2) := by
  have hlast := h.rest.holds.lastIndex
  cases hscan with
  | held agree =>
      obtain ⟨hle, hshared⟩ :=
        h.agreed htrue hmatches le_rfl fun k e _ hentry => (agree k e hentry).2
      have haccept : n₁.acceptEntries r [] 0 = n₁.advanceFollowerCommit r.leaderCommit
          (n₁.appendEntriesResponse r.sender r.requestID true n₁.lastLogIndex 0 0 r.readID) := by
        rw [Node.acceptEntries, if_neg (by simp), if_neg (by rw [h.rest.durableLog]; omega)]
      rw [haccept]
      refine h.succeed hgains hleader htrue (fun hguarded => ?_) (fuel + 1) writes
      refine h.follows_of_held htrue hguarded ?_
      have hfront : (σ₁.llog r.term).take (r.prevLogIndex + min 1 r.entries.length) <+:
          (σ₁.llog r.term).take (r.prevLogIndex + r.entries.length) :=
        take_prefix_take (Nat.add_le_add_left (min_le_right _ _) _)
      rw [← hshared] at hfront
      exact hfront.trans (List.take_prefix _ _)
  | conflict offset entry found differs inside uncommitted agree =>
      have hwithin := (List.getElem?_eq_some_iff.mp found).1
      obtain ⟨hle, hshared⟩ := h.agreed htrue hmatches hwithin.le agree
      obtain ⟨-, -, hterm⟩ := htrue.entry h.tidy found
      have hbase := h.rest.base_le.trans h.rest.applied_le
      have hnext : r.prevLogIndex + 1 + offset = r.prevLogIndex + offset + 1 := by omega
      have hlt : r.prevLogIndex + offset < r.prevLogIndex + r.entries.length := by omega
      have hkeeps : ∀ other ≤ r.prevLogIndex + r.entries.length,
          (σ₁.llog r.term).take other <+: σ₁.log id → other ≤ r.prevLogIndex + offset := by
        intro other hother hheld
        by_contra hbeyond
        refine differs ?_
        rw [← hterm, h.rest.holds.termAt_eq (by omega)]
        exact termAt_shared hheld _ (by omega) (hother.trans htrue.inside)
      obtain ⟨hdropped, hfollower⟩ :=
        h.truncate hlt htrue.inside (by omega) hshared (by omega) hkeeps
      have hlog : (σ₁.accepted id (r.prevLogIndex + offset)).log id =
          (σ₁.llog r.term).take (r.prevLogIndex + offset) := by
        have hcurrent : σ₁.term id = r.term := by rw [← h.rest.term_eq, h.term_eq]
        simp [Consensus.accepted, hcurrent]
      have hacts := hdropped.acts (Acts.refl h.valid h.tidy)
      have hkept : (σ.log id).take disk.commitIndex <+:
          (σ₁.accepted id (r.prevLogIndex + offset)).log id := by
        rw [hlog, ← hshared]
        refine prefix_take_of_le hgains.keeps ((List.length_take_le _ _).trans ?_)
        rw [← hgains.commit_eq, ← h.rest.commit_eq]
        omega
      have hne : r.entries.drop offset ≠ [] := by
        rw [Ne, List.drop_eq_nil_iff]
        omega
      rw [Node.acceptEntries, if_pos hne, if_pos (by omega), hnext]
      refine hfollower.append
        ⟨hgains.applied_eq, hgains.snapshot_eq, hgains.commit_eq, hkept⟩ hleader
        (htrue.mono hacts (.refl σ₁ id ρ)) hlt htrue.inside hlog (htrue.drop_eq offset) ?_ fuel
        writes
      rw [if_pos (by omega)]
      exact hdropped
  | beyond offset within next agree =>
      obtain ⟨hle, hshared⟩ := h.agreed htrue hmatches within.le agree
      have hne : r.entries.drop offset ≠ [] := by
        rw [Ne, List.drop_eq_nil_iff]
        omega
      rw [Node.acceptEntries, if_pos hne, if_neg (by simp)]
      refine h.append hgains hleader htrue (by omega) htrue.inside ?_ (htrue.drop_eq offset)
        (.done _ _) fuel writes
      rw [← hshared, List.take_of_length_le (by omega)]

theorem Poised.matched_role (h : Poised config guarded σ ρ id files disk n)
    (htrue : TrueAppend guarded σ ρ id r) (hle : n.term ≤ r.term)
    (hfollower : Follower config guarded σ₁ ρ id files disk₁ n₁ r.term r.sender)
    (hrecognizes : Recognizes config id σ disk n σ₁ disk₁ n₁)
    (hmatches : n₁.matchesAt r.prevLogIndex r.prevLogTerm = true) (hguarded : guarded) :
    n.role ≠ .leader := by
  intro hrole
  have hlt := h.leader_lt htrue.leads htrue.other hle hrole
  rw [h.rest.term_eq] at hlt
  have hown : termAt LogEntry.term (σ.llog r.term) r.prevLogIndex = r.term := by
    rcases htrue.offer hguarded with hown | (hlater | ⟨hterm, -⟩) | ⟨hterm, -⟩
    · exact hown
    all_goals omega
  obtain ⟨hinside, hshared⟩ :=
    hfollower.matched (htrue.mono hrecognizes.acts (.refl σ id ρ)) hmatches
  have hprev : r.prevLogIndex ≤ (σ.llog r.term).length :=
    (Nat.le_add_right _ _).trans htrue.inside
  have hheld : termAt LogEntry.term (σ.log id) r.prevLogIndex = r.term := by
    rw [← hrecognizes.log_eq, ← termAt_take le_rfl, hshared, termAt_take le_rfl,
      termAt_front (hrecognizes.acts.history.llog_le _) hprev, hown]
  obtain ⟨hpos, hbound⟩ := termAt_pos_le (by rw [hheld]; omega)
  obtain ⟨e, he, heq⟩ := termAt_mem (τ := LogEntry.term) hpos hbound
  have := (h.valid.inv.log_sound id).2 e he
  omega

theorem Poised.appendEntries (h : Poised config guarded σ ρ id files disk n)
    (htrue : TrueAppend guarded σ ρ id r) :
    Achieves config guarded id files ρ (.appendEntries r) σ disk n := by
  by_cases hstale : r.term < n.term
  · refine h.unchanged (n.appendEntriesResponse r.sender r.requestID false n.lastLogIndex 0 0
      r.readID) ?_ ?_ ?_
    · simp only [Node.step, Node.handleAppendEntries, if_pos hstale]
    · simp [Node.appendEntriesResponse, Plain]
    · simp only [Node.appendEntriesResponse, List.mem_singleton, forall_eq, h.rest.id_eq]
      exact ⟨h.member, htrue.other, by simp, by simp, by simp⟩
  refine h.follow (Nat.not_lt.mp hstale) htrue.leads htrue.other
    (fun m => m.answerEntries r) (fun m => answerEntries_hardened m r) (fun m hrole => ?_) ?_ ?_
  · simp only [Node.answerEntries]
    split
    · exact ⟨hrole, rfl, rfl, rfl⟩
    · split
      · exact ⟨hrole, rfl, rfl, rfl⟩
      · exact acceptEntries_frame m r hrole _ _
  · simp only [Node.step, Node.handleAppendEntries, if_neg hstale]
  · intro σ₁ disk₁ n₁ fuel writes hfollower hrecognizes
    have htrue₁ := htrue.mono hrecognizes.acts (.refl σ id ρ)
    simp only [Node.answerEntries]
    by_cases hmatches : n₁.matchesAt r.prevLogIndex r.prevLogTerm = true
    · rw [if_neg (by simp [hmatches])]
      obtain ⟨hle, -⟩ := hfollower.matched htrue₁ hmatches
      have hscan := n₁.entriesFrom_scan (r.prevLogIndex + 1) r.entries
        (fun k e hentry => (htrue₁.entry hfollower.tidy hentry).1)
        (by rw [hfollower.rest.holds.lastIndex]; omega)
      unfold Node.entriesToAppend
      generalize n₁.entriesFrom (r.prevLogIndex + 1) r.entries = result at hscan ⊢
      cases result with
      | none =>
          refine hfollower.respond hrecognizes (hfollower.announces htrue₁ (by simp) ?_) _ writes
          intro hguarded _ _
          cases hscan with
          | refused offset entry found differs inside committed agree =>
              exact hfollower.hint_refused htrue₁ hguarded found committed _ _
      | some accepted =>
          exact hfollower.accept hrecognizes.gains
            (h.matched_role htrue (Nat.not_lt.mp hstale) hfollower hrecognizes hmatches) htrue₁
            hmatches hscan fuel writes
    · rw [Bool.not_eq_true] at hmatches
      rw [if_pos hmatches]
      exact hfollower.respond hrecognizes (hfollower.announces htrue₁ (by simp)
        fun hguarded _ _ => hfollower.hint_mismatch htrue₁ hguarded hmatches) _ writes

end Requests

end QuorumKV.Cluster
