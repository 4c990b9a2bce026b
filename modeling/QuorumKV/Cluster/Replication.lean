import QuorumKV.Cluster.Following
import QuorumKV.Cluster.Proposal

/-!
# Entries a Follower takes over

A Follower compares a request with its log.  Either the comparison fails, and
the response hints at a position the Leader may try, or the Follower takes over
what it lacks, writes it, and commits what it knows to be committed.
-/

namespace QuorumKV.Cluster

open Raft QuorumKV.Runtime Session Foundation

structure Gains (id : NodeID) (σ : Ideal) (disk : Disk) (n : Node) (σ' : Ideal) (disk' : Disk)
    (n' : Node) : Prop where
  applied_eq : n'.lastApplied = n.lastApplied
  snapshot_eq : disk'.snapshotIndex = disk.snapshotIndex
  commit_eq : disk'.commitIndex = disk.commitIndex
  keeps : (σ.log id).take disk.commitIndex <+: σ'.log id

section Committing

variable {config : Config} {guarded : Prop} {σ σ' : Ideal} {ρ : Rounds} {id : NodeID}
  {files : List Snapshot.State} {disk disk' : Disk} {n n' m : Node} {event : Event} {T : Nat}
  {leader : NodeID} {index : Nat} {response : List Action}

theorem Recognizes.gains (h : Recognizes config id σ disk n σ' disk' n') :
    Gains id σ disk n σ' disk' n' :=
  ⟨h.applied_eq, h.snapshot_eq, h.commit_eq, h.log_eq ▸ List.take_prefix _ _⟩

/-! ## Committing what the Leader committed -/

theorem Follower.settle (h : Follower config guarded σ' ρ id files disk' n' T leader)
    (hgains : Gains id σ disk n σ' disk' n')
    (hleader : guarded → n.role ≠ .leader)
    (hbody : body m = body { n' with commitIndex := index, durableCommitIndex := index })
    (hrole : m.role = .follower) (hidle : m.pendingReads = []) (hle : n'.commitIndex ≤ index)
    (hinside : index ≤ (σ'.log id).length)
    (hknown : guarded → σ'.Known T ((σ'.log id).take index))
    (hresponse : ∀ action ∈ response, Plain action ∧ Announces config guarded σ' ρ id action) :
    Completes config guarded id files ρ event σ disk n σ' { disk' with commitIndex := index }
      (m.applyThrough index).1
      ([.resetElectionTimer] ++ ((m.applyThrough index).2 ++ response)) := by
  have hcommit : m.commitIndex = index := (congrArg Node.commitIndex hbody :)
  have happlied : m.lastApplied = n.lastApplied :=
    (congrArg Node.lastApplied hbody :).trans hgains.applied_eq
  have hmax : max n.lastApplied index = index := by
    rw [← hgains.applied_eq]
    exact max_eq_right (h.rest.applied_le.trans hle)
  have hholds : m.Holds (σ'.log id) :=
    h.rest.holds.of_parts (congrArg Node.logParts hbody :)
  have hbase : m.logBaseIndex = n'.logBaseIndex := (congrArg Node.logBaseIndex hbody :)
  have hready : m.logBaseIndex ≤ m.lastApplied := by
    rw [hbase, happlied, ← hgains.applied_eq]
    exact h.rest.base_le
  have hfinal := applyThrough_applied hholds hready hinside
  have hwalk : Walk ((σ'.log id).take index)
      (fun readID applied => guarded → Confirms ρ n readID applied) m.lastApplied
      (m.applyThrough index).2 (max m.lastApplied index) :=
    applyThrough_walk hholds hready hinside
      (fun offset hoffset => List.getElem?_take_of_lt hoffset)
      fun read hread => by simp [hidle] at hread
  have happlying := applyThrough_applying m index
  rw [happlied, hmax] at hfinal hwalk
  generalize m.applyThrough index = applied at *
  have hmem : ∀ action ∈ [.resetElectionTimer] ++ (applied.2 ++ response),
      Applying action ∨ Plain action ∧ Announces config guarded σ' ρ id action := by
    intro action hmem
    rcases List.mem_append.mp hmem with hmem | hmem
    · rw [List.mem_singleton.mp hmem]
      exact .inr ⟨trivial, trivial⟩
    · rcases List.mem_append.mp hmem with hmem | hmem
      · exact .inl (happlying action hmem)
      · exact .inr (hresponse action hmem)
  have hnot : ∀ action, ¬ Applying action → ¬ Plain action →
      action ∉ [.resetElectionTimer] ++ (applied.2 ++ response) := by
    intro action happlying hplain haction
    rcases hmem action haction with hcase | hcase
    · exact happlying hcase
    · exact hplain hcase.1
  have hdisk : disk.commitIndex ≤ index := by
    rw [← hgains.commit_eq, ← h.rest.commit_eq]
    exact hle
  refine Completes.follower ?_ ?_ ?_ ?_ (fun action haction => ?_) ?_ hgains.snapshot_eq.ge hdisk
    (.inr hgains.keeps) (fun hguarded hrole => absurd hrole (hleader hguarded))
    (fun _ _ => hnot _ (fun hcase => hcase) (fun hcase => hcase))
    (fun _ _ haction => absurd haction (hnot _ (fun hcase => hcase) (fun hcase => hcase)))
  · refine h.stored.committed (h.rest.commit_eq ▸ hle) hinside fun hguarded => ?_
    rw [← h.rest.term_eq, h.term_eq]
    exact hknown hguarded
  · refine h.rest.committed rfl rfl hle ?_
    have hsettled : body applied.1 = { body m with lastApplied := index } := by
      rw [hfinal.eq]
      rfl
    rw [hsettled, hbody]
    rfl
  · rw [hfinal.eq]
    exact hrole
  · have hreads := hfinal.reads
    rw [hidle] at hreads
    exact List.eq_nil_iff_forall_not_mem.mpr fun read hread => by simpa using hreads read hread
  · rcases hmem action haction with hcase | hcase
    · exact announces_of_applying hcase
    · exact hcase.2
  · have hindex : applied.1.commitIndex = index ∧ applied.1.lastApplied = index := by
      rw [hfinal.eq]
      exact ⟨hcommit, rfl⟩
    rw [hindex.1, hindex.2]
    exact Walk.cons_plain trivial (hwalk.append
      (Walk.plain (fun action haction => (hresponse action haction).1) _))

theorem Follower.advance (h : Follower config guarded σ' ρ id files disk' n' T leader)
    (hgains : Gains id σ disk n σ' disk' n') (hleader : guarded → n.role ≠ .leader)
    {leaderCommit : Nat}
    (hknown : guarded →
      σ'.Known T ((σ'.log id).take (min leaderCommit (σ'.log id).length)))
    (hresponse : ∀ action ∈ response, Plain action ∧ Announces config guarded σ' ρ id action)
    (fuel : Nat) (writes : List Write) :
    Finishes config guarded id files ρ event σ disk n writes σ' disk'
      (drain (fuel + 1)
        { core := (n'.advanceFollowerCommit leaderCommit response).1, disk := disk', writes
          emitted := [.resetElectionTimer] }
        (n'.advanceFollowerCommit leaderCommit response).2) := by
  have hrefl : Acts config id σ' σ' := Acts.refl h.valid h.tidy
  have hquiet := quiet_of_plain fun action hmem => (hresponse action hmem).1
  rw [← h.rest.holds.lastIndex] at hknown
  unfold Node.advanceFollowerCommit
  dsimp only
  split
  next hadvances =>
    have hinside : min leaderCommit n'.lastLogIndex ≤ (σ'.log id).length := by
      rw [← h.rest.holds.lastIndex]
      exact min_le_right _ _
    generalize min leaderCommit n'.lastLogIndex = index at *
    have hcompletes : Completes config guarded id files ρ event σ disk n σ' _ _ _ :=
      h.settle (m := settled { n' with commitIndex := index }) hgains hleader (by
        simp only [settled, h.rest.durableCommit, max_eq_right (Nat.le_of_lt hadvances)]
        rfl) h.role h.idle (Nat.le_of_lt hadvances) hinside hknown hresponse
    have hdrain := drain_commit fuel { n' with commitIndex := index } response [] disk' writes
      [.resetElectionTimer] h.rest.noCommit (h.rest.commit_eq ▸ Nat.le_of_lt hadvances)
      (by rw [h.stored.lastIndex]; exact hinside)
    rw [List.append_nil, List.nil_append] at hdrain
    rw [hdrain, drain_all_quiet _ _
      ((quiet_of_applying (applyThrough_applying _ _)).append hquiet)]
    refine Finishes.after (.single h.stored hrefl (fun _ => rfl) ?_ hrefl hcompletes.stored)
      (Finishes.completed hrefl hcompletes)
    simp only [Disk.save]
    rw [if_neg]
    rw [not_or, Nat.not_lt, Nat.not_lt, h.stored.lastIndex, ← h.rest.commit_eq]
    exact ⟨Nat.le_of_lt hadvances, hinside⟩
  next hkeeps =>
    have hcompletes : Completes config guarded id files ρ event σ disk n σ' _ _ _ :=
      h.settle (m := n') hgains hleader
        (congrArg (fun durable => body { n' with durableCommitIndex := durable })
          h.rest.durableCommit)
        h.role h.idle le_rfl (by rw [h.rest.commit_eq]; exact h.stored.commit_le)
        (fun hguarded => by
          rw [h.rest.commit_eq, ← h.term_eq, h.rest.term_eq]
          exact h.stored.known hguarded) hresponse
    rw [h.rest.durableCommit, drain_all_quiet _ _
      ((quiet_of_applying (applyThrough_applying _ _)).append hquiet)]
    have hdisk : ({ disk' with commitIndex := n'.commitIndex } : Disk) = disk' := by
      rw [h.rest.commit_eq]
    rw [hdisk] at hcompletes
    exact Finishes.completed hrefl hcompletes

end Committing

/-! ## Comparing a request with the log -/

section Comparing

variable {config : Config} {guarded : Prop} {σ : Ideal} {ρ : Rounds} {id : NodeID}
  {files : List Snapshot.State} {disk : Disk} {n : Node} {r : AppendEntries}

theorem TrueAppend.entry (h : TrueAppend guarded σ ρ id r) (htidy : Tidy config σ) {offset : Nat}
    {entry : LogEntry} (hentry : r.entries[offset]? = some entry) :
    entry.index = r.prevLogIndex + 1 + offset ∧
      r.prevLogIndex + 1 + offset ≤ (σ.llog r.term).length ∧
      termAt LogEntry.term (σ.llog r.term) (r.prevLogIndex + 1 + offset) = entry.term := by
  have hlt := (List.getElem?_eq_some_iff.mp hentry).1
  have hfound : (σ.llog r.term)[r.prevLogIndex + offset]? = some entry := by
    rw [h.entries_eq, List.getElem?_take_of_lt hlt, List.getElem?_drop] at hentry
    exact hentry
  have hindex := htidy.numbered r.term _ entry hfound
  refine ⟨by omega, ?_, ?_⟩
  · have := h.inside
    omega
  · rw [show r.prevLogIndex + 1 + offset = r.prevLogIndex + offset + 1 by omega, termAt, hfound]
    rfl

theorem Follower.matched (h : Follower config guarded σ ρ id files disk n r.term r.sender)
    (htrue : TrueAppend guarded σ ρ id r)
    (hmatches : n.matchesAt r.prevLogIndex r.prevLogTerm = true) :
    r.prevLogIndex ≤ (σ.log id).length ∧
      (σ.log id).take r.prevLogIndex = (σ.llog r.term).take r.prevLogIndex := by
  have hinside : r.prevLogIndex ≤ (σ.llog r.term).length :=
    (Nat.le_add_right _ _).trans htrue.inside
  rcases Nat.eq_zero_or_pos r.prevLogIndex with hzero | hpos
  · simp [hzero]
  rcases h.rest.holds.matchesAt_iff.mp hmatches with ⟨hzero, -⟩ | ⟨hle, hterm⟩
  · omega
  refine ⟨hle, (h.valid.inv.log_sound id).1.matching (h.valid.inv.llog_sound r.term).1 hle hinside ?_⟩
  rw [htrue.prevTerm] at hterm
  -- A zero term would mean that the Leader's log has no entry there.
  have hne : n.termAt r.prevLogIndex ≠ 0 := by
    obtain ⟨e, he, heq⟩ := termAt_mem (τ := LogEntry.term) hpos hinside
    rw [hterm, heq]
    exact ((h.valid.inv.llog_sound r.term).1.positive e he).ne'
  rw [← (h.rest.holds.termAt_of_ne hne).2, hterm]

theorem Follower.agreed (h : Follower config guarded σ ρ id files disk n r.term r.sender)
    (htrue : TrueAppend guarded σ ρ id r)
    (hmatches : n.matchesAt r.prevLogIndex r.prevLogTerm = true) {offset : Nat}
    (hoffset : offset ≤ r.entries.length)
    (hagree : ∀ k e, k < offset → r.entries[k]? = some e →
      n.termAt (r.prevLogIndex + 1 + k) = e.term) :
    r.prevLogIndex + offset ≤ (σ.log id).length ∧
      (σ.log id).take (r.prevLogIndex + offset) =
        (σ.llog r.term).take (r.prevLogIndex + offset) := by
  cases offset with
  | zero => exact h.matched htrue hmatches
  | succ last =>
      have hentry := List.getElem?_eq_getElem (Nat.lt_of_succ_le hoffset)
      obtain ⟨-, hinside, hterm⟩ := htrue.entry h.tidy hentry
      have hsame := hagree last _ (Nat.lt_succ_self _) hentry
      rw [← hterm] at hsame
      have hposition : r.prevLogIndex + (last + 1) = r.prevLogIndex + 1 + last := by omega
      rw [hposition]
      have hne : n.termAt (r.prevLogIndex + 1 + last) ≠ 0 := by
        obtain ⟨e, he, heq⟩ := termAt_mem (τ := LogEntry.term) (by omega) hinside
        rw [hsame, heq]
        exact ((h.valid.inv.llog_sound r.term).1.positive e he).ne'
      have hheld := (h.rest.holds.termAt_of_ne hne).2
      have hle := (termAt_pos_le (hheld ▸ hne)).2
      exact ⟨hle, (h.valid.inv.log_sound id).1.matching (h.valid.inv.llog_sound r.term).1 hle hinside
        (hheld.symm.trans hsame)⟩

theorem Follower.committed {T : Nat} {leader : NodeID}
    (h : Follower config guarded σ ρ id files disk n T leader) (hguarded : guarded) :
    (σ.log id).take n.commitIndex = (σ.llog T).take n.commitIndex := by
  have hknown := h.stored.known hguarded
  rw [← h.rest.commit_eq, ← h.rest.term_eq, h.term_eq] at hknown
  have hfront := hknown.llog config.quorum_inter h.valid.inv (by simp [h.lead])
  have hlength : ((σ.log id).take n.commitIndex).length = n.commitIndex := by
    rw [h.rest.commit_eq]
    simpa using h.stored.commit_le
  rw [take_eq_take hfront hlength.ge, List.take_take, min_self]

theorem Follower.term_pos {T : Nat} {leader : NodeID}
    (h : Follower config guarded σ ρ id files disk n T leader) : 0 < T :=
  (h.valid.inv.vote_le _ _ _ (h.valid.inv.lead_votes _ _ h.lead).2.2).1

theorem Follower.follows_of_held (h : Follower config guarded σ ρ id files disk n r.term r.sender)
    (htrue : TrueAppend guarded σ ρ id r) (hguarded : guarded)
    (hheld : (σ.llog r.term).take (r.prevLogIndex + min 1 r.entries.length) <+: σ.log id) :
    σ.Follows r.term id := by
  have hterm : σ.term id = r.term := by rw [← h.rest.term_eq, h.term_eq]
  have hpositive := h.term_pos
  have hoffer := htrue.offer hguarded
  rw [← hterm] at hoffer hheld hpositive ⊢
  refine h.valid.inv.follows_of_offer hpositive hoffer ?_
    ((take_prefix_take (Nat.le_add_right _ _)).trans hheld) hheld
  rw [hterm]
  exact (Nat.le_add_right _ _).trans htrue.inside

theorem Follower.follows (h : Follower config guarded σ ρ id files disk n r.term r.sender)
    (htrue : TrueAppend guarded σ ρ id r) (hguarded : guarded)
    (hcommitted : r.prevLogIndex + min 1 r.entries.length ≤ n.commitIndex) :
    σ.Follows r.term id := by
  refine h.follows_of_held htrue hguarded ((take_prefix_take hcommitted).trans ?_)
  rw [← h.committed hguarded]
  exact List.take_prefix _ _

/-! ## Rejections -/

theorem Follower.announces (h : Follower config guarded σ ρ id files disk n r.term r.sender)
    (htrue : TrueAppend guarded σ ρ id r) {success : Bool} {matchIndex term index : Nat}
    (hmatched : guarded → success = true →
      matchIndex ≤ σ.ack id r.term ∧ σ.Follows r.term id)
    (hhint : guarded → success = false → index ≠ 0 →
      σ.Hint LogEntry.term r.term id term index) :
    ∀ action ∈ n.appendEntriesResponse r.sender r.requestID success matchIndex term index r.readID,
      Plain action ∧ Announces config guarded σ ρ id action := by
  simp only [Node.appendEntriesResponse, List.mem_singleton, forall_eq, h.rest.id_eq, h.term_eq]
  refine ⟨trivial, h.member, htrue.other, hmatched, hhint, fun hguarded hne _ => ?_⟩
  obtain ⟨round, hround⟩ := Option.ne_none_iff_exists'.mp (htrue.read hguarded hne)
  obtain ⟨-, hreached, -⟩ := h.rounds hguarded _ _ _ hround
  refine ⟨round, hround, hreached id ?_⟩
  rw [← h.rest.term_eq, h.term_eq]

theorem Follower.hint_mismatch (h : Follower config guarded σ ρ id files disk n r.term r.sender)
    (htrue : TrueAppend guarded σ ρ id r) (hguarded : guarded)
    (hmatches : n.matchesAt r.prevLogIndex r.prevLogTerm = false) :
    σ.Hint LogEntry.term r.term id (n.conflictHint r.prevLogIndex).1
      (n.conflictHint r.prevLogIndex).2 := by
  have hinside : r.prevLogIndex ≤ (σ.llog r.term).length :=
    (Nat.le_add_right _ _).trans htrue.inside
  have hlast := h.rest.holds.lastIndex
  have hterm : σ.term id = r.term := by rw [← h.rest.term_eq, h.term_eq]
  have hnot : ¬ ((r.prevLogIndex = 0 ∧ r.prevLogTerm = 0) ∨
      (r.prevLogIndex ≤ (σ.log id).length ∧ n.termAt r.prevLogIndex = r.prevLogTerm)) := by
    rw [← h.rest.holds.matchesAt_iff, hmatches]
    simp
  rw [not_or, not_and, not_and] at hnot
  have hne : r.prevLogIndex ≠ 0 := by
    intro hzero
    refine hnot.1 hzero ?_
    rw [htrue.prevTerm, hzero]
    rfl
  have hpos := Nat.pos_of_ne_zero hne
  unfold Node.conflictHint
  by_cases hbeyond : r.prevLogIndex > n.lastLogIndex
  · rw [if_pos (.inr hbeyond)]
    exact .inr ⟨hterm, .inl ⟨rfl, by omega, by omega⟩⟩
  · rw [if_neg (by omega)]
    have hdiffers := hnot.2 (by omega)
    by_cases hbase : n.logBaseIndex ≤ r.prevLogIndex
    · have hheld := h.rest.holds.termAt_eq hbase
      have hpositive : n.termAt r.prevLogIndex ≠ 0 := by
        obtain ⟨e, he, heq⟩ := termAt_mem (τ := LogEntry.term) hpos
          (by omega : r.prevLogIndex ≤ (σ.log id).length)
        rw [hheld, heq]
        exact ((h.valid.inv.log_sound id).1.positive e he).ne'
      obtain ⟨-, hfirst, hsame⟩ := n.conflictFirst_spec hpos
      refine .inr ⟨hterm, .inr ⟨hpositive, r.prevLogIndex, hfirst, hinside, ?_, hheld.symm, ?_⟩⟩
      · rw [← (h.rest.holds.termAt_of_ne (hsame.trans_ne hpositive)).2, hsame]
      · rw [← htrue.prevTerm]
        exact Ne.symm hdiffers
    · -- The position is compacted here, so it is committed.
      refine .inl (h.follows htrue hguarded ?_)
      have := h.rest.base_le.trans h.rest.applied_le
      omega

theorem Follower.hint_refused (h : Follower config guarded σ ρ id files disk n r.term r.sender)
    (htrue : TrueAppend guarded σ ρ id r) (hguarded : guarded) {offset : Nat} {entry : LogEntry}
    (hfound : r.entries[offset]? = some entry)
    (hcommitted : r.prevLogIndex + 1 + offset ≤ n.commitIndex) (term index : Nat) :
    σ.Hint LogEntry.term r.term id term index := by
  refine .inl (h.follows htrue hguarded ?_)
  have hlt := (List.getElem?_eq_some_iff.mp hfound).1
  omega

end Comparing

end QuorumKV.Cluster
