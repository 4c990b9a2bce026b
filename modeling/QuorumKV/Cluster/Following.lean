import QuorumKV.Cluster.Application
import QuorumKV.Cluster.Election
import QuorumKV.Runtime.Deferral

/-!
# Following a Leader

A node that hears from the Leader of its own or a newer term follows it, and
writes a newer term before anything it decided under it.  What it answers does
not depend on that write, so the answer is that of a core at rest in the
Leader's term.
-/

namespace QuorumKV.Cluster

open Raft QuorumKV.Runtime Session Foundation

/-! ## Recognizing a Leader -/

structure Follower (config : Config) (guarded : Prop) (σ : Ideal) (ρ : Rounds) (id : NodeID)
    (files : List Snapshot.State) (disk : Disk) (n : Node) (T : Nat) (leader : NodeID) : Prop where
  member : id ∈ config.members
  valid : σ.Valid LogEntry.term config.Quorum
  tidy : Tidy config σ
  rounds : guarded → TrueRounds config σ ρ
  stored : Stored guarded σ id files disk
  rest : AtRest config σ id files disk n
  role : n.role = .follower
  idle : n.pendingReads = []
  term_eq : n.term = T
  leaderID : n.leaderID = leader
  lead : σ.lead T = some leader
  other : id ≠ leader

structure Recognizes (config : Config) (id : NodeID) (σ : Ideal) (disk : Disk) (n : Node)
    (σ' : Ideal) (disk' : Disk) (n' : Node) : Prop where
  acts : Acts config id σ σ'
  log_eq : σ'.log id = σ.log id
  applied_eq : n'.lastApplied = n.lastApplied
  base_eq : n'.logBaseIndex = n.logBaseIndex
  commit_eq : disk'.commitIndex = disk.commitIndex
  snapshot_eq : disk'.snapshotIndex = disk.snapshotIndex

section Recognition

variable {config : Config} {guarded : Prop} {σ : Ideal} {ρ : Rounds} {id : NodeID}
  {files : List Snapshot.State} {disk : Disk} {n : Node} {event : Event}

/-- A Leader never hears from another Leader of its term. -/
theorem Poised.leader_lt (h : Poised config guarded σ ρ id files disk n) {T : Nat} {leader : NodeID}
    (hlead : σ.lead T = some leader) (hother : id ≠ leader) (hle : n.term ≤ T)
    (hrole : n.role = .leader) : n.term < T := by
  refine Nat.lt_of_le_of_ne hle fun heq => hother ?_
  have hown := (h.leads hrole).leads
  rw [heq, hlead] at hown
  exact (Option.some.inj hown).symm

/-- Following a Leader reduces to what a Follower at rest answers. -/
theorem Poised.follow (h : Poised config guarded σ ρ id files disk n) {T : Nat} {leader : NodeID}
    (hle : n.term ≤ T) (hlead : σ.lead T = some leader) (hother : id ≠ leader)
    (answer : Node → Node × List Action)
    (hhardened : ∀ m, answer (hardened m) = (hardened (answer m).1, (answer m).2))
    (hkeeps : ∀ m, m.role = .follower → (answer m).1.role = .follower ∧
      (answer m).1.term = m.term ∧ (answer m).1.votedFor = m.votedFor ∧
      (answer m).1.pendingHardState = m.pendingHardState)
    (hstep : n.step event =
      let answered := answer (n.recognizeLeader T leader)
      answered.1.afterTermChange (decide (T > n.term)) (.resetElectionTimer :: answered.2))
    (hanswer : ∀ σ₁ disk₁ n₁ fuel writes,
      Follower config guarded σ₁ ρ id files disk₁ n₁ T leader →
      Recognizes config id σ disk n σ₁ disk₁ n₁ →
      Finishes config guarded id files ρ event σ disk n writes σ₁ disk₁
        (drain (fuel + 2)
          { core := (answer n₁).1, disk := disk₁, writes, emitted := [.resetElectionTimer] }
          (answer n₁).2)) :
    Achieves config guarded id files ρ event σ disk n := by
  by_cases hnewer : n.term < T
  · have hterm : σ.term id < T := h.rest.term_eq ▸ hnewer
    have hacts := Acts.raise h.valid h.tidy hterm.le
    generalize hn₁ : n.recognizeLeader T leader = n₁ at *
    have hshape : n₁ = { n.becomeFollower T leader with recentLeaderContact := true } := by
      rw [← hn₁, Node.recognizeLeader, if_pos hnewer]
    have hterm₁ : n₁.term = T := by rw [hshape]; rfl
    have hvote₁ : n₁.votedFor = [] := by simp [hshape, Node.becomeFollower, hnewer]
    have hrole₁ : n₁.role = .follower := by rw [hshape]; rfl
    have hpending₁ : n₁.pendingHardState = fun _ => none := by
      rw [hshape]
      exact h.rest.noHardState
    have hbody : body { n₁ with term := n.term, votedFor := n.votedFor } = body n := by
      rw [hshape]
      rfl
    have hraised : (σ.raised id T).term id = T := by simp [Consensus.raised]
    have hvote : n₁.votedFor = ((σ.raised id T).vote id ((σ.raised id T).term id)).getD [] := by
      rw [hraised, hvote₁]
      simp [Consensus.raised, vote_none h.valid hterm]
    have hstored := h.stored.hardState hacts rfl (hterm₁.trans hraised.symm) hvote
    have hrest : AtRest config (σ.raised id T) id files
        { disk with hardState := ⟨n₁.term, n₁.votedFor⟩ } (hardened n₁) :=
      h.rest.hardened rfl hbody (hterm₁.trans hraised.symm)
    obtain ⟨hrole', hterm', hvote', hpending'⟩ := hkeeps n₁ hrole₁
    have hfollower : Follower config guarded (σ.raised id T) ρ id files
        { disk with hardState := ⟨n₁.term, n₁.votedFor⟩ } (hardened n₁) T leader :=
      { member := h.member
        valid := hacts.valid
        tidy := hacts.tidy
        rounds := fun hguarded => (h.rounds hguarded).mono hacts
        stored := hstored
        rest := hrest
        role := hrole₁
        idle := by rw [hshape]; rfl
        term_eq := hterm₁
        leaderID := by rw [hshape]; rfl
        lead := hlead
        other := hother }
    have hrecognizes : Recognizes config id σ disk n (σ.raised id T)
        { disk with hardState := ⟨n₁.term, n₁.votedFor⟩ } (hardened n₁) :=
      ⟨hacts, rfl, (congrArg Node.lastApplied hbody :), (congrArg Node.logBaseIndex hbody :),
        rfl, rfl⟩
    have hstep' : n.step event =
        (answer n₁).1.persistHardState (.resetElectionTimer :: (answer n₁).2) := by
      rw [hstep]
      simp only [Node.afterTermChange, gt_iff_lt, hnewer, decide_true, if_true]
    have hfinishes := hanswer _ _ _ 0 [.hardState ⟨n₁.term, n₁.votedFor⟩] hfollower hrecognizes
    rw [hhardened] at hfinishes
    refine ⟨σ, ⟨h.refl, h.stored, fun _ hleader => ?_, fun _ _ hleader => ?_⟩, ?_⟩
    · rw [hstep'] at hleader
      exact absurd (hrole'.symm.trans hleader) (by simp)
    · rw [hstep'] at hleader
      exact absurd (hrole'.symm.trans hleader) (by simp)
    · have hdrain := drain_hardState 2 (answer n₁).1 (.resetElectionTimer :: (answer n₁).2) [] disk
        [] [] (hpending'.trans hpending₁)
      rw [List.append_nil, List.nil_append, List.nil_append, hterm', hvote'] at hdrain
      rw [Runtime.step, hstep', hdrain, drain_cons _ _ rfl]
      exact Finishes.after (.single h.stored h.refl (fun _ => rfl) rfl hacts hstored) hfinishes
  · obtain rfl : T = n.term := by omega
    have hrole : n.role ≠ .leader := fun hrole => hnewer (h.leader_lt hlead hother hle hrole)
    generalize hn₁ : n.recognizeLeader n.term leader = n₁ at *
    have hshape : n₁ = { n with
        role := .follower, leaderID := leader, readReady := false, recentLeaderContact := true } := by
      rw [← hn₁, Node.recognizeLeader, if_neg hnewer]
    have hbody : body n₁ = body n := by rw [hshape]; rfl
    have hfollower : Follower config guarded σ ρ id files disk n₁ n.term leader :=
      { member := h.member
        valid := h.valid
        tidy := h.tidy
        rounds := h.rounds
        stored := h.stored
        rest := h.rest.of_body hbody
        role := by rw [hshape]
        idle := by rw [hshape]; exact h.idle hrole
        term_eq := by rw [hshape]
        leaderID := by rw [hshape]
        lead := hlead
        other := hother }
    have hrecognizes : Recognizes config id σ disk n σ disk n₁ :=
      ⟨h.refl, rfl, (congrArg Node.lastApplied hbody :), (congrArg Node.logBaseIndex hbody :),
        rfl, rfl⟩
    obtain ⟨hrole', -⟩ := hkeeps n₁ hfollower.role
    have hstep' : n.step event = ((answer n₁).1, .resetElectionTimer :: (answer n₁).2) := by
      rw [hstep]
      simp only [Node.afterTermChange, gt_iff_lt, hnewer, decide_false, Bool.false_eq_true, if_false]
    refine ⟨σ, ⟨h.refl, h.stored, fun _ hleader => ?_, fun _ hleader => absurd hleader hrole⟩, ?_⟩
    · rw [hstep'] at hleader
      exact absurd (hrole'.symm.trans hleader) (by simp)
    · rw [Runtime.step, hstep', drain_cons _ _ rfl]
      exact hanswer _ _ _ 1 [] hfollower hrecognizes

end Recognition

/-! ## Answering -/

section Answers

variable {config : Config} {guarded : Prop} {σ σ' : Ideal} {ρ : Rounds} {id : NodeID}
  {files : List Snapshot.State} {disk disk' : Disk} {n n' m : Node} {event : Event} {T : Nat}
  {leader : NodeID} {emitted : List Action}

theorem Completes.follower (hstored : Stored guarded σ' id files disk')
    (hrest : AtRest config σ' id files disk' n') (hrole : n'.role = .follower)
    (hidle : n'.pendingReads = [])
    (hsends : ∀ action ∈ emitted, Announces config guarded σ' ρ id action)
    (hwalk : Walk ((σ'.log id).take n'.commitIndex)
      (fun readID applied => guarded → Confirms ρ n readID applied) n.lastApplied emitted
      n'.lastApplied)
    (hbase : disk.snapshotIndex ≤ disk'.snapshotIndex)
    (hcommit : disk.commitIndex ≤ disk'.commitIndex)
    (hkeeps : disk.commitIndex ≤ disk'.snapshotIndex ∨
      (σ.log id).take disk.commitIndex <+: σ'.log id)
    (happlies : guarded → n.role = .leader → ∀ entry, .applyEntry entry ∉ emitted)
    (haccepts : ∀ proposalID index, .proposalAccepted proposalID index ∉ emitted)
    (hrestores : ∀ index term, .restoreSnapshot index term ∈ emitted →
      installs n event = some (index, term) ∧ n'.lastApplied = index ∧
        (∀ entry, .applyEntry entry ∉ emitted) ∧
          emitted.count (.restoreSnapshot index term) = 1) :
    Completes config guarded id files ρ event σ disk n σ' disk' n' emitted where
  stored := hstored
  rest := hrest
  campaigns hcandidate := by simp [hrole] at hcandidate
  leads hleader := by simp [hrole] at hleader
  replicates _ hleader := by simp [hrole] at hleader
  idle _ := hidle
  elected _ hleader := by simp [hrole] at hleader
  sends := hsends
  walk := hwalk
  base_mono := hbase
  commit_mono := hcommit
  keeps := hkeeps
  continues _ hleader := by simp [hrole] at hleader
  applies hguarded hleader entry hmem := absurd hmem (happlies hguarded hleader entry)
  accepts proposalID index hmem := absurd hmem (haccepts proposalID index)
  begun read hread := by simp [hidle] at hread
  restores index term hmem := by
    obtain ⟨hinstalls, happlied, hnone, honce⟩ := hrestores index term hmem
    exact ⟨hinstalls, by simp [hrole], happlied, hnone, honce⟩

theorem Follower.respond (h : Follower config guarded σ' ρ id files disk' n' T leader)
    (hrecognizes : Recognizes config id σ disk n σ' disk' n') {response : List Action}
    (hresponse : ∀ action ∈ response, Plain action ∧ Announces config guarded σ' ρ id action)
    (fuel : Nat) (writes : List Write) :
    Finishes config guarded id files ρ event σ disk n writes σ' disk'
      (drain fuel { core := n', disk := disk', writes, emitted := [.resetElectionTimer] }
        response) := by
  rw [drain_all_quiet _ _ (quiet_of_plain fun action hmem => (hresponse action hmem).1)]
  refine Finishes.completed (Acts.refl h.valid h.tidy) ?_
  have hplain : ∀ action ∈ [.resetElectionTimer] ++ response,
      Plain action ∧ Announces config guarded σ' ρ id action := by
    intro action hmem
    rcases List.mem_cons.mp hmem with rfl | hmem
    · exact ⟨trivial, trivial⟩
    · exact hresponse action hmem
  refine Completes.follower h.stored h.rest h.role h.idle
    (fun action hmem => (hplain action hmem).2) ?_ hrecognizes.snapshot_eq.ge
    hrecognizes.commit_eq.ge (.inr (hrecognizes.log_eq ▸ List.take_prefix _ _))
    (fun _ _ entry hmem => (hplain _ hmem).1.elim) (fun _ _ hmem => (hplain _ hmem).1.elim)
    (fun _ _ hmem => (hplain _ hmem).1.elim)
  rw [hrecognizes.applied_eq]
  exact Walk.plain (fun action hmem => (hplain action hmem).1) _

end Answers

end QuorumKV.Cluster
