import QuorumKV.Cluster.Acceptance

/-!
# Installing a Leader's Snapshot

A Follower that has received a whole Snapshot past its base writes it and
starts from it.  Where its log agrees with the Snapshot, the rest of the log
stays; otherwise the Snapshot takes the place of the log.  A disk refuses a
Snapshot only when it has compacted past it already.
-/

namespace QuorumKV.Cluster

open Raft QuorumKV.Runtime Session Foundation

theorem installSnapshot_eq (n : Node) (r : InstallSnapshot) (retainSuffix : Bool) :
    n.installSnapshot r retainSuffix =
      { n with
        log := (n.installSnapshot r retainSuffix).log
        lastLogIndex := (n.installSnapshot r retainSuffix).lastLogIndex
        lastLogTerm := (n.installSnapshot r retainSuffix).lastLogTerm
        durableLogIndex := (n.installSnapshot r retainSuffix).durableLogIndex
        logBaseIndex := r.snapshotIndex
        logBaseTerm := r.snapshotTerm
        commitIndex := max n.commitIndex r.snapshotIndex
        durableCommitIndex := max n.durableCommitIndex r.snapshotIndex
        lastApplied := r.snapshotIndex } := by
  unfold Node.installSnapshot
  cases retainSuffix <;>
  · dsimp only
    split <;> rfl

section Installing

variable {config : Config} {guarded : Prop} {σ σ' σ₁ : Ideal} {ρ : Rounds} {id : NodeID}
  {files : List Snapshot.State} {disk disk' disk₁ : Disk} {n n₁ : Node} {event : Event}
  {r : InstallSnapshot}

theorem AtRest.installed (h : AtRest config σ id files disk n) (hterm : σ'.term id = σ.term id)
    {retainSuffix : Bool} (hholds : (n.installSnapshot r retainSuffix).Holds (σ'.log id))
    (hfiled : Filed files r.snapshotIndex r.snapshotTerm)
    (hhard : disk'.hardState = disk.hardState)
    (hcommit : disk'.commitIndex = max disk.commitIndex r.snapshotIndex) :
    AtRest config σ' id files disk' (n.installSnapshot r retainSuffix) := by
  have hdurable := Node.installSnapshot_durableLogIndex r retainSuffix h.durableLog
  have heq := installSnapshot_eq n r retainSuffix
  generalize n.installSnapshot r retainSuffix = m at *
  have hbase : m.logBaseIndex = r.snapshotIndex := (congrArg Node.logBaseIndex heq :)
  have hbaseTerm : m.logBaseTerm = r.snapshotTerm := (congrArg Node.logBaseTerm heq :)
  have happlied : m.lastApplied = r.snapshotIndex := (congrArg Node.lastApplied heq :)
  have hindex : m.commitIndex = max n.commitIndex r.snapshotIndex :=
    (congrArg Node.commitIndex heq :)
  have hterm' : m.term = n.term := (congrArg Node.term heq :)
  have hvote : m.votedFor = n.votedFor := (congrArg Node.votedFor heq :)
  exact
    { id_eq := (congrArg Node.id heq :).trans h.id_eq
      peers_eq := (congrArg Node.peers heq :).trans h.peers_eq
      holds := hholds
      term_eq := by rw [hterm', hterm, h.term_eq]
      vote_eq := by rw [hvote, hhard, h.vote_eq]
      commit_eq := by rw [hindex, hcommit, h.commit_eq]
      base_le := by rw [hbase, happlied]
      applied_le := by rw [happlied, hindex]; exact le_max_right _ _
      durableTerm := by rw [(congrArg Node.durableTerm heq :), hterm']; exact h.durableTerm
      durableVote := by rw [(congrArg Node.durableVotedFor heq :), hvote]; exact h.durableVote
      durableLog := hdurable
      durableCommit := by
        rw [(congrArg Node.durableCommitIndex heq :), hindex, ← h.durableCommit]
      noHardState := (congrArg Node.pendingHardState heq :).trans h.noHardState
      noLog := (congrArg Node.pendingLog heq :).trans h.noLog
      noCommit := (congrArg Node.pendingCommit heq :).trans h.noCommit
      noSnapshot := (congrArg Node.pendingSnapshot heq :).trans h.noSnapshot
      filed := fun _ => by rw [hbase, hbaseTerm]; exact hfiled }

/-! ## Responses -/

theorem Follower.snapshot_follows
    (h : Follower config guarded σ ρ id files disk n r.term r.sender)
    (htrue : TrueInstall config guarded σ id r)
    (hguarded : guarded) (hheld : (σ.llog r.term).take r.snapshotIndex <+: σ.log id) :
    σ.Follows r.term id := by
  have hterm : σ.term id = r.term := by rw [← h.rest.term_eq, h.term_eq]
  have hpositive := h.term_pos
  have hoffer := htrue.offer hguarded
  have hinside := htrue.inside
  rw [← hterm] at hoffer hheld hinside hpositive ⊢
  exact h.valid.inv.follows_of_offer hpositive hoffer hinside hheld hheld

theorem Follower.announces_snapshot
    (h : Follower config guarded σ ρ id files disk n r.term r.sender)
    (htrue : TrueInstall config guarded σ id r) {done : Bool}
    (hinstalled : guarded → r.success = true → done = true →
      r.snapshotIndex ≤ σ.ack id r.term ∧ σ.Follows r.term id) :
    ∀ action ∈ n.snapshotResponse r r.success r.nextOffset done,
      Plain action ∧ Announces config guarded σ ρ id action := by
  simp only [Node.snapshotResponse, List.mem_singleton, forall_eq, h.rest.id_eq, h.term_eq]
  exact ⟨trivial, htrue.other, htrue.numbered, htrue.fits, hinstalled⟩

theorem Follower.answerSnapshot
    (h : Follower config guarded σ ρ id files disk n r.term r.sender)
    (htrue : TrueInstall config guarded σ id r) {done : Bool}
    (hheld : guarded → r.success = true → done = true →
      (σ.llog r.term).take r.snapshotIndex <+: σ.log id) :
    ∃ σ', Acts config id σ σ' ∧ σ'.log id = σ.log id ∧
      Follower config guarded σ' ρ id files disk n r.term r.sender ∧
      ∀ action ∈ n.snapshotResponse r r.success r.nextOffset done,
        Plain action ∧ Announces config guarded σ' ρ id action := by
  by_cases hanswers : guarded ∧ r.success = true ∧ done = true
  · obtain ⟨hguarded, hsuccess, hdone⟩ := hanswers
    have hfront := hheld hguarded hsuccess hdone
    have hfollows := h.snapshot_follows htrue hguarded hfront
    have hacts := h.acknowledge hfollows
    have hfollower := h.kept hacts rfl rfl rfl
    refine ⟨_, hacts, rfl, hfollower,
      hfollower.announces_snapshot (htrue.mono hacts) fun _ _ _ =>
        ⟨?_, hacts.follows hfollows⟩⟩
    have hterm : σ.term id = r.term := by rw [← h.rest.term_eq, h.term_eq]
    have hlength := hfront.length_le
    rw [List.length_take, min_eq_left htrue.inside] at hlength
    simp only [Consensus.acknowledged, hterm, Consensus.put_same, h.rest.holds.lastIndex]
    exact hlength.trans (le_max_right _ _)
  · refine ⟨σ, Acts.refl h.valid h.tidy, rfl, h, h.announces_snapshot htrue ?_⟩
    exact fun hguarded hsuccess hdone => absurd ⟨hguarded, hsuccess, hdone⟩ hanswers

/-! ## Writing a Snapshot -/

theorem save_snapshot {index term : Nat} {retainSuffix : Bool}
    (h : Disk.save disk (.snapshot index term retainSuffix) = some disk') :
    disk.snapshotIndex ≤ index ∧ (retainSuffix = true ∨ disk.commitIndex ≤ index) ∧
      disk' = { disk with
        log := if retainSuffix then disk.log.drop (index - disk.snapshotIndex) else []
        commitIndex := max disk.commitIndex index
        snapshotIndex := index
        snapshotTerm := term } := by
  simp only [Disk.save] at h
  split at h
  · simp at h
  next hkept =>
    rw [not_or, not_or, not_or, not_and, Nat.not_lt, Nat.not_lt] at hkept
    refine ⟨hkept.2.2.1, ?_, (Option.some.inj h).symm⟩
    cases retainSuffix with
    | true => exact .inl rfl
    | false => exact .inr (hkept.2.2.2 rfl)

theorem Stored.retained (h : Stored guarded σ id files disk) {index term : Nat}
    (hbase : disk.snapshotIndex ≤ index) (hle : index ≤ (σ.log id).length)
    (hterm : term = termAt LogEntry.term (σ.log id) index) (hfiled : Filed files index term)
    (hknown : guarded → σ.Known (σ.term id) ((σ.log id).take index)) :
    Stored guarded σ id files
      { disk with
        log := disk.log.drop (index - disk.snapshotIndex)
        commitIndex := max disk.commitIndex index
        snapshotIndex := index
        snapshotTerm := term } := by
  refine ⟨h.term_eq, h.vote_eq, le_max_right _ _, max_le h.commit_le hle, hterm, ?_,
    fun _ => hfiled, fun hguarded => ?_⟩
  · simp only [h.log_eq, List.drop_drop, Nat.add_sub_cancel' hbase]
  · rcases max_choice disk.commitIndex index with hmax | hmax
    · rw [hmax]
      exact h.known hguarded
    · rw [hmax]
      exact hknown hguarded

theorem Stored.discarded (h : Stored guarded σ id files disk) (hterm : σ'.term id = σ.term id)
    (hvote : σ'.vote id = σ.vote id) {index term : Nat} (hlength : (σ'.log id).length = index)
    (hcommit : disk.commitIndex ≤ index)
    (hlast : term = termAt LogEntry.term (σ'.log id) index) (hfiled : Filed files index term)
    (hknown : guarded → σ'.Known (σ'.term id) (σ'.log id)) :
    Stored guarded σ' id files
      { disk with
        log := []
        commitIndex := max disk.commitIndex index
        snapshotIndex := index
        snapshotTerm := term } := by
  refine ⟨hterm ▸ h.term_eq, ?_, le_max_right _ _, (max_le hcommit le_rfl).trans hlength.ge, hlast,
    ?_, fun _ => hfiled, fun hguarded => ?_⟩
  · rw [hterm, hvote]
    exact h.vote_eq
  · rw [List.drop_eq_nil_of_le hlength.le]
  · rw [max_eq_right hcommit, List.take_of_length_le hlength.le]
    exact hknown hguarded

theorem Follower.restore (h : Follower config guarded σ₁ ρ id files disk₁ n₁ r.term r.sender)
    (htrue : TrueInstall config guarded σ₁ id r)
    (happlied : n₁.lastApplied = r.snapshotIndex)
    (hterm : r.snapshotTerm = termAt LogEntry.term (σ₁.log id) r.snapshotIndex)
    (hheld : (σ₁.llog r.term).take r.snapshotIndex <+: σ₁.log id)
    (hinstalls : installs n (.installSnapshot r) = some (r.snapshotIndex, r.snapshotTerm))
    (hmono : disk.snapshotIndex ≤ disk₁.snapshotIndex)
    (hcommit : disk.commitIndex ≤ disk₁.commitIndex)
    (hkeeps : disk.commitIndex ≤ disk₁.snapshotIndex ∨
      (σ.log id).take disk.commitIndex <+: σ₁.log id) (fuel : Nat) (writes : List Write) :
    Finishes config guarded id files ρ (.installSnapshot r) σ disk n writes σ₁ disk₁
      (drain fuel { core := n₁, disk := disk₁, writes, emitted := [.resetElectionTimer] }
        (.restoreSnapshot r.snapshotIndex r.snapshotTerm ::
          n₁.snapshotResponse r r.success r.nextOffset true)) := by
  obtain ⟨σ₂, hacts, hlog, hfollower, hresponse⟩ :=
    h.answerSnapshot htrue fun _ _ _ => hheld
  have hplain := fun action hmem => (hresponse action hmem).1
  have hemitted : ∀ action ∈ [.resetElectionTimer] ++
      [.restoreSnapshot r.snapshotIndex r.snapshotTerm] ++
        n₁.snapshotResponse r r.success r.nextOffset true,
      action = .restoreSnapshot r.snapshotIndex r.snapshotTerm ∨
        Plain action ∧ Announces config guarded σ₂ ρ id action := by
    intro action hmem
    simp only [List.cons_append, List.nil_append, List.mem_cons] at hmem
    rcases hmem with rfl | rfl | hmem
    · exact .inr ⟨trivial, trivial⟩
    · exact .inl rfl
    · exact .inr (hresponse action hmem)
  have hnot : ∀ action, action ≠ .restoreSnapshot r.snapshotIndex r.snapshotTerm → ¬ Plain action →
      action ∉ [.resetElectionTimer] ++ [.restoreSnapshot r.snapshotIndex r.snapshotTerm] ++
        n₁.snapshotResponse r r.success r.nextOffset true := by
    intro action hother hplain hmem
    rcases hemitted action hmem with hcase | hcase
    · exact hother hcase
    · exact hplain hcase.1
  rw [drain_cons _ _ rfl, drain_all_quiet _ _ (quiet_of_plain hplain)]
  refine Finishes.completed hacts (Completes.follower hfollower.stored hfollower.rest hfollower.role
    hfollower.idle (fun action hmem => ?_) ?_ hmono hcommit (hlog.symm ▸ hkeeps)
    (fun _ _ entry => hnot _ (by simp) (fun hcase => hcase))
    (fun _ _ => hnot _ (by simp) (fun hcase => hcase)) (fun index term hmem => ?_))
  · rcases hemitted action hmem with rfl | hcase
    · trivial
    · exact hcase.2
  · rw [happlied, hlog]
    have hlength : r.snapshotIndex ≤ ((σ₁.log id).take n₁.commitIndex).length := by
      have hcommitted := h.stored.commit_le
      rw [← h.rest.commit_eq] at hcommitted
      rw [List.length_take, min_eq_left hcommitted, ← happlied]
      exact h.rest.applied_le
    refine ⟨hlength, ?_, Walk.plain hplain _⟩
    rw [termAt_take (happlied ▸ h.rest.applied_le)]
    exact hterm
  · rcases hemitted _ hmem with hcase | hcase
    · obtain ⟨rfl, rfl⟩ : index = r.snapshotIndex ∧ term = r.snapshotTerm := by simpa using hcase
      refine ⟨hinstalls, happlied, fun entry => hnot _ (by simp) (fun hcase => hcase), ?_⟩
      have honly : (n₁.snapshotResponse r r.success r.nextOffset true).count
          (.restoreSnapshot r.snapshotIndex r.snapshotTerm) = 0 :=
        List.count_eq_zero.mpr fun hmem => hplain _ hmem
      simp [honly]
    · exact hcase.1.elim

theorem Follower.install (h : Follower config guarded σ₁ ρ id files disk₁ n₁ r.term r.sender)
    (hrecognizes : Recognizes config id σ disk n σ₁ disk₁ n₁)
    (htrue : TrueInstall config guarded σ₁ id r)
    (hfiled : Filed files r.snapshotIndex r.snapshotTerm)
    (hinstalls : installs n (.installSnapshot r) = some (r.snapshotIndex, r.snapshotTerm))
    {retainSuffix : Bool}
    (hsaved : Disk.save disk₁ (.snapshot r.snapshotIndex r.snapshotTerm retainSuffix) = some disk')
    (hacts : Acts config id σ₁ σ') (hterm : σ'.term id = σ₁.term id)
    (hstored : Stored guarded σ' id files disk')
    (hholds : ∀ m, body m = body n₁ → (m.installSnapshot r retainSuffix).Holds (σ'.log id))
    (hlast : r.snapshotTerm = termAt LogEntry.term (σ'.log id) r.snapshotIndex)
    (hheld : (σ'.llog r.term).take r.snapshotIndex <+: σ'.log id)
    (hkeeps : disk.commitIndex ≤ r.snapshotIndex ∨
      (σ.log id).take disk.commitIndex <+: σ'.log id) (fuel : Nat) (writes : List Write) :
    Finishes config guarded id files ρ (.installSnapshot r) σ disk n writes σ₁ disk₁
      (drain (fuel + 1)
        { core := (n₁.persistSnapshot r retainSuffix).1, disk := disk₁, writes
          emitted := [.resetElectionTimer] }
        (n₁.persistSnapshot r retainSuffix).2) := by
  obtain ⟨hle, -, hdisk⟩ := save_snapshot hsaved
  have hdrain := drain_snapshot fuel n₁ r retainSuffix [] disk₁ disk' writes [.resetElectionTimer]
    h.rest.noSnapshot hsaved
  rw [List.append_nil, List.nil_append] at hdrain
  rw [hdrain]
  refine Finishes.after (.single h.stored (Acts.refl h.valid h.tidy) (fun _ => rfl) hsaved hacts
    hstored) ?_
  generalize hn₂ : ({ n₁ with
    nextSnapshotPersistence := n₁.nextSnapshotPersistence + 1 } : Node) = n₂
  have hbody : body n₂ = body n₁ := by rw [← hn₂]; rfl
  have heq := installSnapshot_eq n₂ r retainSuffix
  have hfollower : Follower config guarded σ' ρ id files disk' (n₂.installSnapshot r retainSuffix)
      r.term r.sender :=
    { h with
      valid := hacts.valid
      tidy := hacts.tidy
      rounds := fun hguarded => (h.rounds hguarded).mono hacts
      stored := hstored
      rest := (h.rest.of_body hbody).installed hterm (hholds n₂ hbody) hfiled (by rw [hdisk])
        (by rw [hdisk])
      role := by rw [heq, ← hn₂]; exact h.role
      idle := by rw [heq, ← hn₂]; exact h.idle
      term_eq := by rw [heq, ← hn₂]; exact h.term_eq
      leaderID := by rw [heq, ← hn₂]; exact h.leaderID
      lead := hacts.history.lead_eq _ _ h.lead }
  refine hfollower.restore (htrue.mono hacts) (congrArg Node.lastApplied heq :) hlast hheld
    hinstalls ?_ ?_ (by rw [hdisk]; exact hkeeps) fuel _
  · rw [hdisk, ← hrecognizes.snapshot_eq]
    exact hle
  · rw [hdisk, ← hrecognizes.commit_eq]
    exact le_max_left _ _

theorem Follower.retain (h : Follower config guarded σ₁ ρ id files disk₁ n₁ r.term r.sender)
    (hrecognizes : Recognizes config id σ disk n σ₁ disk₁ n₁)
    (htrue : TrueInstall config guarded σ₁ id r)
    (hfiled : Filed files r.snapshotIndex r.snapshotTerm)
    (hinstalls : installs n (.installSnapshot r) = some (r.snapshotIndex, r.snapshotTerm))
    (hbase : n₁.logBaseIndex < r.snapshotIndex)
    (hinside : r.snapshotIndex ≤ (σ₁.log id).length)
    (hlast : r.snapshotTerm = termAt LogEntry.term (σ₁.log id) r.snapshotIndex)
    (hsaved : Disk.save disk₁ (.snapshot r.snapshotIndex r.snapshotTerm true) = some disk')
    (fuel : Nat) (writes : List Write) :
    Finishes config guarded id files ρ (.installSnapshot r) σ disk n writes σ₁ disk₁
      (drain (fuel + 1)
        { core := (n₁.persistSnapshot r true).1, disk := disk₁, writes
          emitted := [.resetElectionTimer] }
        (n₁.persistSnapshot r true).2) := by
  obtain ⟨hle, -, hdisk⟩ := save_snapshot hsaved
  have hshared : (σ₁.log id).take r.snapshotIndex = (σ₁.llog r.term).take r.snapshotIndex := by
    refine (h.valid.inv.log_sound id).1.matching (h.valid.inv.llog_sound r.term).1 hinside
      htrue.inside ?_
    rw [← hlast, htrue.term_eq]
  refine h.install hrecognizes htrue hfiled hinstalls hsaved
    (Acts.refl h.valid h.tidy) rfl ?_ (fun m hbody => ?_) hlast ?_
    (.inr (hrecognizes.log_eq ▸ List.take_prefix _ _)) fuel writes
  · rw [hdisk, if_pos rfl]
    refine h.stored.retained hle hinside hlast hfiled fun hguarded => ?_
    rw [hshared, ← h.rest.term_eq, h.term_eq]
    exact htrue.known hguarded
  · have hbase' : m.logBaseIndex = n₁.logBaseIndex := (congrArg Node.logBaseIndex hbody :)
    exact (holds_of_body h.rest.holds hbody).installSnapshot_retained (h.tidy.log h.valid id)
      (hbase' ▸ hbase.le) hinside hlast
  · rw [← hshared]
    exact List.take_prefix _ _

theorem Follower.discard (h : Follower config guarded σ₁ ρ id files disk₁ n₁ r.term r.sender)
    (hrecognizes : Recognizes config id σ disk n σ₁ disk₁ n₁)
    (htrue : TrueInstall config guarded σ₁ id r)
    (hfiled : Filed files r.snapshotIndex r.snapshotTerm)
    (hinstalls : installs n (.installSnapshot r) = some (r.snapshotIndex, r.snapshotTerm))
    (hmissing : ¬ (σ₁.llog r.term).take r.snapshotIndex <+: σ₁.log id)
    (hsaved : Disk.save disk₁ (.snapshot r.snapshotIndex r.snapshotTerm false) = some disk')
    (fuel : Nat) (writes : List Write) :
    Finishes config guarded id files ρ (.installSnapshot r) σ disk n writes σ₁ disk₁
      (drain (fuel + 1)
        { core := (n₁.persistSnapshot r false).1, disk := disk₁, writes
          emitted := [.resetElectionTimer] }
        (n₁.persistSnapshot r false).2) := by
  obtain ⟨hle, hcommit, hdisk⟩ := save_snapshot hsaved
  have hcommit := hcommit.resolve_left (by simp)
  have hcurrent : σ₁.term id = r.term := by rw [← h.rest.term_eq, h.term_eq]
  have hacts : Acts config id σ₁ (σ₁.accepted id r.snapshotIndex) := by
    refine Acts.accept h.valid h.tidy ⟨?_, ?_, le_rfl, ?_, fun _ hother _ => hother⟩
    · simp [hcurrent, h.lead]
    · rw [hcurrent]
      exact htrue.inside
    · rw [hcurrent]
      exact hmissing
  have hlog : (σ₁.accepted id r.snapshotIndex).log id =
      (σ₁.llog r.term).take r.snapshotIndex := by
    simp [Consensus.accepted, hcurrent]
  have hlength : ((σ₁.llog r.term).take r.snapshotIndex).length = r.snapshotIndex := by
    simpa using htrue.inside
  have hlast : r.snapshotTerm =
      termAt LogEntry.term ((σ₁.llog r.term).take r.snapshotIndex) r.snapshotIndex := by
    rw [termAt_take le_rfl, ← htrue.term_eq]
  refine h.install hrecognizes htrue hfiled hinstalls hsaved hacts rfl ?_
    (fun m _ => ?_) (hlog.symm ▸ hlast) (hlog.symm ▸ List.prefix_rfl)
    (.inl (hrecognizes.commit_eq ▸ hcommit)) fuel writes
  · rw [hdisk, if_neg (by simp)]
    have hsame : (σ₁.accepted id r.snapshotIndex).term id = σ₁.term id := rfl
    refine h.stored.discarded hsame rfl (hlog.symm ▸ hlength) hcommit (hlog.symm ▸ hlast) hfiled
      fun hguarded => ?_
    rw [hlog, hsame, hcurrent]
    exact (htrue.known hguarded).extend hacts.history
  · rw [hlog]
    refine Node.Holds.installSnapshot_discarded m hlength.symm ?_
    rw [lastTerm, hlength]
    exact hlast

/-! ## A Snapshot for a Follower -/

theorem Follower.refused (h : Follower config guarded σ₁ ρ id files disk₁ n₁ r.term r.sender)
    (htrue : TrueInstall config guarded σ₁ id r)
    (hbase : n₁.logBaseIndex < r.snapshotIndex) (hguarded : guarded)
    (hrefused : Disk.save disk₁ (.snapshot r.snapshotIndex r.snapshotTerm
      (decide (r.snapshotIndex ≤ n₁.lastLogIndex) &&
        n₁.termAt r.snapshotIndex == r.snapshotTerm)) = none) :
    r.snapshotIndex < disk₁.snapshotIndex := by
  have hpositive : r.snapshotTerm ≠ 0 := by
    obtain ⟨e, he, heq⟩ := termAt_mem (τ := LogEntry.term) (by omega) htrue.inside
    rw [htrue.term_eq, heq]
    exact ((h.valid.inv.llog_sound r.term).1.positive e he).ne'
  by_contra hle
  simp only [Disk.save] at hrefused
  split at hrefused
  next hcondition =>
    rcases hcondition with hzero | hzero | hlt | ⟨hretain, hlt⟩
    · omega
    · exact hpositive hzero
    · exact hle hlt
    · -- What is committed here is part of the Leader's log, so the Snapshot agrees with it.
      rw [← h.rest.commit_eq] at hlt
      have hcommitted := h.stored.commit_le
      rw [← h.rest.commit_eq] at hcommitted
      have hsame : n₁.termAt r.snapshotIndex = r.snapshotTerm := by
        rw [h.rest.holds.termAt_eq hbase.le, htrue.term_eq, ← termAt_take hlt.le,
          h.committed hguarded, termAt_take hlt.le]
      rw [Bool.and_eq_false_iff, decide_eq_false_iff_not, beq_eq_false_iff_ne,
        h.rest.holds.lastIndex] at hretain
      rcases hretain with hbeyond | hdiffers
      · omega
      · exact hdiffers hsame
  · simp at hrefused

theorem Poised.installSnapshot (h : Poised config guarded σ ρ id files disk n)
    (htrue : TrueInstall config guarded σ id r)
    (hfiled : r.success = true → r.done = true → Filed files r.snapshotIndex r.snapshotTerm) :
    Achieves config guarded id files ρ (.installSnapshot r) σ disk n := by
  by_cases hstale : r.term < n.term
  · refine h.unchanged (n.snapshotResponse r false r.offset false) ?_ ?_ ?_
    · simp only [Node.step, Node.handleInstallSnapshot, if_pos hstale]
    · simp [Node.snapshotResponse, Plain]
    · simp only [Node.snapshotResponse, List.mem_singleton, forall_eq, h.rest.id_eq]
      exact ⟨htrue.other, htrue.numbered, by simp, by simp⟩
  refine h.follow (Nat.not_lt.mp hstale) htrue.leads htrue.other
    (fun m => m.answerSnapshot r) (fun m => answerSnapshot_hardened m r) (fun m hrole => ?_) ?_ ?_
  · simp only [Node.answerSnapshot]
    split <;> exact ⟨hrole, rfl, rfl, rfl⟩
  · simp only [Node.step, Node.handleInstallSnapshot, if_neg hstale]
  · intro σ₁ disk₁ n₁ fuel writes hfollower hrecognizes
    have htrue₁ := htrue.mono hrecognizes.acts
    have hholds := hfollower.rest.holds
    simp only [Node.answerSnapshot]
    by_cases hinstalls : r.success = true ∧ r.done = true ∧ r.snapshotIndex > n₁.logBaseIndex
    · rw [if_pos hinstalls]
      obtain ⟨hsuccess, hdone, hbase⟩ := hinstalls
      have hfiled := hfiled hsuccess hdone
      have hinstalls : installs n (.installSnapshot r) = some (r.snapshotIndex, r.snapshotTerm) :=
        if_pos ⟨hsuccess, hdone, Nat.not_lt.mp hstale, hrecognizes.base_eq ▸ hbase⟩
      cases hsaved : Disk.save disk₁ (.snapshot r.snapshotIndex r.snapshotTerm
          (decide (r.snapshotIndex ≤ n₁.lastLogIndex) &&
            n₁.termAt r.snapshotIndex == r.snapshotTerm)) with
      | none =>
          rw [drain_snapshot_refused (fuel + 1) n₁ r _ disk₁ writes _ hsaved]
          refine ⟨⟨_, _, hinstalls, fun hguarded => ?_⟩, [], σ₁, (List.append_nil _).symm,
            .done _ _⟩
          rw [← hrecognizes.snapshot_eq]
          exact hfollower.refused htrue₁ hbase hguarded hsaved
      | some disk' =>
          cases hretain : decide (r.snapshotIndex ≤ n₁.lastLogIndex) &&
              n₁.termAt r.snapshotIndex == r.snapshotTerm with
          | true =>
              rw [hretain] at hsaved
              rw [Bool.and_eq_true, decide_eq_true_eq, beq_iff_eq, hholds.termAt_eq hbase.le,
                hholds.lastIndex] at hretain
              exact hfollower.retain hrecognizes htrue₁ hfiled hinstalls hbase hretain.1
                hretain.2.symm hsaved (fuel + 1) writes
          | false =>
              rw [hretain] at hsaved
              refine hfollower.discard hrecognizes htrue₁ hfiled hinstalls
                (fun hheld => ?_) hsaved (fuel + 1) writes
              have hlength := hheld.length_le
              rw [List.length_take, min_eq_left htrue₁.inside] at hlength
              rw [Bool.and_eq_false_iff, decide_eq_false_iff_not, beq_eq_false_iff_ne,
                hholds.lastIndex, hholds.termAt_eq hbase.le] at hretain
              refine hretain.elim (fun hbeyond => hbeyond hlength) fun hdiffers => hdiffers ?_
              rw [termAt_shared hheld _ le_rfl htrue₁.inside, htrue₁.term_eq]
    · rw [if_neg hinstalls]
      have hheld : guarded → r.success = true →
          (r.success && r.done && decide (r.snapshotIndex ≤ n₁.logBaseIndex)) = true →
          (σ₁.llog r.term).take r.snapshotIndex <+: σ₁.log id := by
        intro hguarded _ hinstalled
        simp only [Bool.and_eq_true, decide_eq_true_eq] at hinstalled
        have hle := hinstalled.2.trans (hfollower.rest.base_le.trans hfollower.rest.applied_le)
        refine (take_prefix_take hle).trans ?_
        rw [← hfollower.committed hguarded]
        exact List.take_prefix _ _
      obtain ⟨σ₂, hacts, hlog, hfollower₂, hresponse⟩ :=
        hfollower.answerSnapshot htrue₁ hheld
      exact Finishes.before hacts (hfollower₂.respond
        ⟨hrecognizes.acts.trans hacts, hlog.trans hrecognizes.log_eq, hrecognizes.applied_eq,
          hrecognizes.base_eq, hrecognizes.commit_eq, hrecognizes.snapshot_eq⟩ hresponse _ writes)

end Installing

end QuorumKV.Cluster
