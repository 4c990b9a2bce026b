import QuorumKV.Cluster.Progress

/-!
# Elections

Timeouts, pre-votes, and votes.  A node that campaigns or grants a vote writes
its hard state before anything else happens, so each of these steps is one step
of the consensus state: a newer term, a campaign, or a vote.
-/

namespace QuorumKV.Cluster

open Raft QuorumKV.Runtime Session Foundation

structure Poised (config : Config) (guarded : Prop) (σ : Ideal) (ρ : Rounds) (id : NodeID)
    (files : List Snapshot.State) (disk : Disk) (n : Node) : Prop where
  member : id ∈ config.members
  valid : σ.Valid LogEntry.term config.Quorum
  tidy : Tidy config σ
  rounds : guarded → TrueRounds config σ ρ
  stored : Stored guarded σ id files disk
  rest : AtRest config σ id files disk n
  campaigns : n.role = .candidate → Campaigns config σ id n
  leads : n.role = .leader → Leads σ id n
  replicates : guarded → n.role = .leader → Replicates config σ ρ id n
  idle : n.role ≠ .leader → n.pendingReads = []

section Steps

variable {config : Config} {id : NodeID} {σ : Ideal}
  (hvalid : σ.Valid LogEntry.term config.Quorum) (htidy : Tidy config σ)

include hvalid htidy

theorem Acts.raise {T : Nat} (newer : σ.term id ≤ T) : Acts config id σ (σ.raised id T) :=
  { Consensus.ActsAt.raise config.quorum_inter hvalid newer with
    tidy := ⟨htidy.numbered, htidy.voted⟩ }

omit hvalid in
theorem Tidy.granted {f c : NodeID} {T : Nat} (hmember : c ∈ config.members) :
    Tidy config (σ.granted f c T) := by
  refine ⟨htidy.numbered, fun g U d hvote => ?_⟩
  by_cases hsame : g = f ∧ U = T
  · obtain ⟨rfl, rfl⟩ := hsame
    simp only [Consensus.granted, Consensus.put_same, Option.some.injEq] at hvote
    exact hvote ▸ hmember
  · simp only [Consensus.granted, Consensus.put_other hsame] at hvote
    exact htidy.voted g U d hvote

theorem Acts.campaign {T : Nat} (hmember : id ∈ config.members) (newer : σ.term id < T) :
    Acts config id σ (σ.campaigned id T) :=
  { Consensus.ActsAt.campaign config.quorum_inter hvalid newer with
    tidy := ⟨htidy.numbered, (Tidy.granted htidy hmember).voted⟩ }

theorem Acts.grant {c : NodeID} {T : Nat} (newer : σ.term id ≤ T) (free : σ.vote id T = none)
    (campaigns : σ.vote c T = some c)
    (upToDate : UpToDate LogEntry.term (σ.cand c T) (σ.log id)) :
    Acts config id σ (σ.granted id c T) :=
  { Consensus.ActsAt.grant config.quorum_inter hvalid newer free campaigns upToDate with
    tidy := Tidy.granted htidy (htidy.voted c T c campaigns) }

omit htidy in
theorem vote_none {T : Nat} (newer : σ.term id < T) : σ.vote id T = none := by
  cases hvote : σ.vote id T with
  | none => rfl
  | some c => exact absurd (hvalid.inv.vote_le id T c hvote).2 (Nat.not_le.mpr newer)

end Steps

namespace Poised

variable {config : Config} {guarded : Prop} {σ : Ideal} {ρ : Rounds} {id : NodeID}
  {files : List Snapshot.State} {disk : Disk} {n : Node} {event : Event}

theorem refl (h : Poised config guarded σ ρ id files disk n) : Acts config id σ σ :=
  Acts.refl h.valid h.tidy

theorem vote_iff (h : Poised config guarded σ ρ id files disk n) {c : NodeID}
    (hc : c ≠ []) : n.votedFor = c ↔ σ.vote id n.term = some c := by
  rw [h.rest.vote_eq, h.stored.vote_eq, h.rest.term_eq]
  cases hvote : σ.vote id (σ.term id) with
  | none => simp [Ne.symm hc]
  | some d => simp

theorem vote_nil_iff (h : Poised config guarded σ ρ id files disk n) :
    n.votedFor = [] ↔ σ.vote id n.term = none := by
  rw [h.rest.vote_eq, h.stored.vote_eq, h.rest.term_eq]
  cases hvote : σ.vote id (σ.term id) with
  | none => simp
  | some d =>
      have hmember := h.tidy.voted id _ d hvote
      simp only [Option.getD_some, reduceCtorEq, iff_false]
      rintro rfl
      exact config.named hmember

theorem stepDown (h : Poised config guarded σ ρ id files disk n) {T : Nat} (hnewer : n.term < T)
    (hstep : n.step event = (n.becomeFollower T []).persistHardState []) :
    Achieves config guarded id files ρ event σ disk n := by
  have hterm : σ.term id < T := h.rest.term_eq ▸ hnewer
  have hvote : (σ.vote id T).getD [] = [] := by simp [vote_none h.valid hterm]
  refine Achieves.hardState [] [] h.refl h.stored h.rest hstep ?_ (by simp) (by simp)
    (Acts.raise h.valid h.tidy hterm.le) rfl ?_ ?_ (by simp) ?_ ?_ rfl
  · rfl
  · simp [Node.becomeFollower, Consensus.raised]
  · simp [Node.becomeFollower, Consensus.raised, hnewer, hvote]
  · simp [Node.becomeFollower]
  · simp [Node.becomeFollower]

theorem startElection (h : Poised config guarded σ ρ id files disk n) (n₀ : Node)
    (before : List Action) (hbody : body n₀ = body n) (hidle : n₀.pendingReads = [])
    (hbefore : ∀ action ∈ before, Plain action)
    (hsends : ∀ σ, ∀ action ∈ before, Announces config guarded σ ρ id action)
    (hstep : n.step event = (n₀.startElection.1, before ++ n₀.startElection.2)) :
    Achieves config guarded id files ρ event σ disk n := by
  have hrest := h.rest.of_body hbody
  have hnewer : σ.term id < n₀.term + 1 := by
    rw [hrest.term_eq]
    exact Nat.lt_succ_self _
  have hacts := Acts.campaign h.valid h.tidy h.member hnewer
  have hvote : (σ.campaigned id (n₀.term + 1)).vote id (n₀.term + 1) = some id :=
    Consensus.put_same _ _ _ _
  have hcand : (σ.campaigned id (n₀.term + 1)).cand id (n₀.term + 1) = σ.log id :=
    Consensus.put_same _ _ _ _
  have hterm : (σ.campaigned id (n₀.term + 1)).term id = n₀.term + 1 := by
    simp [Consensus.campaigned]
  refine Achieves.hardState before _ h.refl h.stored h.rest hstep ?_ hbefore ?_ hacts rfl hterm.symm
    ?_ ?_ ?_ ?_ hidle
  · rw [show n.term = n₀.term from (congrArg Node.term hbody.symm :),
      show n.votedFor = n₀.votedFor from (congrArg Node.votedFor hbody.symm :)]
    exact hbody
  · simp [Plain]
  · simp only [hterm, hvote, Option.getD_some]
    exact hrest.id_eq
  · intro action hmem
    rcases List.mem_append.mp hmem with hmem | hmem
    · exact hsends _ action hmem
    · rcases List.mem_cons.mp hmem with rfl | hmem
      · trivial
      · obtain ⟨peer, -, rfl⟩ := List.mem_map.mp hmem
        simp only [Announces, Truthful, hrest.id_eq]
        refine ⟨hvote, ?_, ?_⟩
        · simp only [hcand, hrest.holds.lastIndex]
        · simp only [hcand, hrest.holds.lastTerm]
  · simp
  · intro _
    simp only [hrest.id_eq]
    refine ⟨?_, hvote, hcand, ?_⟩
    · intro f hf
      rw [Finset.mem_singleton] at hf
      subst hf
      exact ⟨h.member, hvote⟩
    · intro hlead
      have hown := (h.valid.inv.lead_votes _ _ hlead).2.2
      simp [vote_none h.valid hnewer] at hown

theorem unchanged (h : Poised config guarded σ ρ id files disk n) (actions : List Action)
    (hstep : n.step event = (n, actions)) (hplain : ∀ action ∈ actions, Plain action)
    (hsends : ∀ action ∈ actions, Announces config guarded σ ρ id action) :
    Achieves config guarded id files ρ event σ disk n :=
  Achieves.plain _ _ h.refl h.stored h.rest hstep rfl hplain hsends (fun hrole => hrole)
    h.campaigns h.leads h.replicates h.idle fun _ hread => .inl (List.mem_map_of_mem hread)

theorem electionTimeout (h : Poised config guarded σ ρ id files disk n) :
    Achieves config guarded id files ρ .electionTimeout σ disk n := by
  by_cases hrole : n.role = .leader
  · refine h.unchanged [] ?_ (by simp) (by simp)
    simp [Node.step, Node.startPreVote, hrole]
  · have hidle := h.idle hrole
    generalize hn₀ : ({ n with
      recentLeaderContact := false
      leaderID := []
      role := .preCandidate
      preVotes := {n.id} } : Node) = n₀
    have hbody : body n₀ = body n := by rw [← hn₀]; rfl
    have hreads : n₀.pendingReads = [] := by rw [← hn₀]; exact hidle
    have hrole₀ : n₀.role = .preCandidate := by rw [← hn₀]
    have hstep : n.step .electionTimeout =
        if n₀.quorum = 1 then
          (n₀.startElection.1, (.resetElectionTimer :: n₀.peers.map fun peer =>
            .sendPreVoteRequest peer ⟨n₀.id, n₀.term + 1, n₀.lastLogIndex, n₀.lastLogTerm⟩) ++
              n₀.startElection.2)
        else (n₀, .resetElectionTimer :: n₀.peers.map fun peer =>
          .sendPreVoteRequest peer ⟨n₀.id, n₀.term + 1, n₀.lastLogIndex, n₀.lastLogTerm⟩) := by
      simp only [Node.step, Node.startPreVote, if_neg hrole, ← hn₀]
    split at hstep
    · exact h.startElection n₀ _ hbody hreads (by simp [Plain]) (by simp [Announces]) hstep
    · exact Achieves.plain _ _ h.refl h.stored h.rest hstep hbody (by simp [Plain])
        (by simp [Announces]) (by simp [hrole₀]) (by simp [hrole₀]) h.leads (by simp [hrole₀])
        (fun _ => hreads) (by simp [hreads])

theorem preVoteRequest (h : Poised config guarded σ ρ id files disk n)
    (r : PreVoteRequest) :
    Achieves config guarded id files ρ (.preVoteRequest r) σ disk n :=
  h.unchanged _ rfl (by simp [Plain]) (by simp [Announces])

theorem preVoteResponse (h : Poised config guarded σ ρ id files disk n)
    (r : PreVoteResponse) :
    Achieves config guarded id files ρ (.preVoteResponse r) σ disk n := by
  by_cases hnewer : n.term < r.currentTerm
  · refine h.stepDown hnewer ?_
    simp only [Node.step, Node.handlePreVoteResponse, if_pos hnewer]
  · by_cases hignored : n.role ≠ .preCandidate ∨ r.term ≠ n.term + 1 ∨ r.granted = false
    · refine h.unchanged [] ?_ (by simp) (by simp)
      simp only [Node.step, Node.handlePreVoteResponse, if_neg hnewer, if_pos hignored]
    · have hrole : n.role = .preCandidate := by
        by_contra hrole
        exact hignored (.inl hrole)
      have hidle := h.idle (by simp [hrole])
      generalize hn₀ : ({ n with preVotes := insert r.sender n.preVotes } : Node) = n₀
      have hbody : body n₀ = body n := by rw [← hn₀]; rfl
      have hreads : n₀.pendingReads = [] := by rw [← hn₀]; exact hidle
      have hrole₀ : n₀.role = .preCandidate := by rw [← hn₀]; exact hrole
      have hstep : n.step (.preVoteResponse r) =
          if n₀.preVotes.card < n₀.quorum then (n₀, []) else n₀.startElection := by
        simp only [Node.step, Node.handlePreVoteResponse, if_neg hnewer, if_neg hignored, ← hn₀]
      split at hstep
      · exact Achieves.plain _ _ h.refl h.stored h.rest hstep hbody (by simp) (by simp)
          (by simp [hrole₀]) (by simp [hrole₀]) h.leads (by simp [hrole₀]) (fun _ => hreads)
          (by simp [hreads])
      · exact h.startElection n₀ [] hbody hreads (by simp) (by simp) hstep

/-! ## Votes -/

theorem upToDate_of_check (h : Poised config guarded σ ρ id files disk n) {n₀ : Node}
    (hindex : n₀.lastLogIndex = n.lastLogIndex) (hlastTerm : n₀.lastLogTerm = n.lastLogTerm)
    {r : VoteRequest} (htrue : TrueVoteRequest σ r)
    (hcheck : n₀.candidateLogIsUpToDate r.lastLogTerm r.lastLogIndex = true) :
    UpToDate LogEntry.term (σ.cand r.sender r.term) (σ.log id) := by
  simp only [Node.candidateLogIsUpToDate, logIsAtLeastAsUpToDate, hindex, hlastTerm,
    h.rest.holds.lastIndex, h.rest.holds.lastTerm, htrue.lastIndex, htrue.lastTerm_eq,
    Bool.or_eq_true, Bool.and_eq_true, decide_eq_true_eq, beq_iff_eq] at hcheck
  rcases hcheck with hlater | ⟨heq, hlonger⟩
  · exact .inl hlater
  · exact .inr ⟨heq, hlonger⟩

theorem announces_voteResponse (hmember : id ∈ config.members) {n₀ : Node} (hid : n₀.id = id)
    {dest : NodeID} {granted : Bool}
    (hgranted : granted = true → σ.vote id n₀.term = some dest) :
    ∀ action ∈ n₀.voteResponse dest granted,
      Plain action ∧ Announces config guarded σ ρ id action := by
  simp only [Node.voteResponse, List.mem_singleton, forall_eq, Announces, Truthful, hid]
  exact ⟨trivial, hmember, hgranted⟩

theorem answerVote (h : Poised config guarded σ ρ id files disk n) {dest : NodeID}
    (granted : Bool) (hgranted : granted = true → σ.vote id n.term = some dest)
    (hstep : n.step event = (n, n.voteResponse dest granted)) :
    Achieves config guarded id files ρ event σ disk n :=
  have hresponse := announces_voteResponse h.member h.rest.id_eq hgranted
  h.unchanged _ hstep (fun action hmem => (hresponse action hmem).1)
    fun action hmem => (hresponse action hmem).2

theorem refuseVote (h : Poised config guarded σ ρ id files disk n) (dest : NodeID)
    (hstep : n.step event = (n, n.voteResponse dest false)) :
    Achieves config guarded id files ρ event σ disk n :=
  h.answerVote false (fun hgranted => absurd hgranted Bool.false_ne_true) hstep

theorem grantVote (h : Poised config guarded σ ρ id files disk n) {n₀ : Node} {r : VoteRequest}
    (htrue : TrueVoteRequest σ r) (hterm : n₀.term = r.term) (hnewer : n.term ≤ r.term)
    (hfree : σ.vote id r.term = none) (hrole : n₀.role ≠ .leader ∧ n₀.role ≠ .candidate)
    (hidle : n₀.pendingReads = [])
    (hbody : body { n₀ with term := n.term, votedFor := n.votedFor } = body n)
    (hcheck : n₀.candidateLogIsUpToDate r.lastLogTerm r.lastLogIndex = true)
    (hstep : n.step event = { n₀ with votedFor := r.sender }.persistHardState
      (Node.voteResponse { n₀ with votedFor := r.sender } r.sender true)) :
    Achieves config guarded id files ρ event σ disk n := by
  have hid : n₀.id = id := (congrArg Node.id hbody :).trans h.rest.id_eq
  have hupToDate := h.upToDate_of_check (congrArg Node.lastLogIndex hbody :)
    (congrArg Node.lastLogTerm hbody :) htrue hcheck
  have hacts := Acts.grant h.valid h.tidy (h.rest.term_eq ▸ hnewer) hfree htrue.campaigns
    hupToDate
  have hvote : (σ.granted id r.sender r.term).vote id r.term = some r.sender :=
    Consensus.put_same _ _ _ _
  have hraised : (σ.granted id r.sender r.term).term id = r.term := by
    simp [Consensus.granted]
  have hresponse : ∀ action ∈ Node.voteResponse { n₀ with votedFor := r.sender } r.sender true,
      Plain action ∧ Announces config guarded (σ.granted id r.sender r.term) ρ id action :=
    announces_voteResponse h.member hid fun _ => by simp only [hterm, hvote]
  refine Achieves.hardState [] _ h.refl h.stored h.rest hstep hbody (by simp)
    (fun action hmem => (hresponse action hmem).1) hacts rfl ?_ ?_
    (fun action hmem => (hresponse action hmem).2) hrole.1 ?_ hidle
  · rw [hraised]
    exact hterm
  · simp only [hraised, hvote, Option.getD_some]
  · intro hcandidate
    exact absurd hcandidate hrole.2

theorem votedFor_self (h : Poised config guarded σ ρ id files disk n)
    (hrole : n.role = .leader ∨ n.role = .candidate) : n.votedFor ≠ [] := by
  rw [Ne, h.vote_nil_iff]
  intro hnone
  rcases hrole with hrole | hrole
  · have hown := (h.valid.inv.lead_votes _ _ (h.leads hrole).leads).2.2
    simp [hnone] at hown
  · have hown := (h.campaigns hrole).own
    simp [hnone] at hown

theorem voteRequest (h : Poised config guarded σ ρ id files disk n) {r : VoteRequest}
    (htrue : TrueVoteRequest σ r) :
    Achieves config guarded id files ρ (.voteRequest r) σ disk n := by
  have hsender : r.sender ≠ [] := by
    intro hnil
    exact config.named (hnil ▸ h.tidy.voted _ _ _ htrue.campaigns)
  by_cases hstale : r.term < n.term
  · refine h.refuseVote r.sender ?_
    simp only [Node.step, Node.handleVoteRequest, if_pos hstale]
  · by_cases hnewer : n.term < r.term
    · have hterm : σ.term id < r.term := h.rest.term_eq ▸ hnewer
      have hfree := vote_none h.valid hterm
      generalize hn₀ : n.becomeFollower r.term [] = n₀
      have hvoted : n₀.votedFor = [] := by simp [← hn₀, Node.becomeFollower, hnewer]
      have hbody : body { n₀ with term := n.term, votedFor := n.votedFor } = body n := by
        rw [← hn₀]; rfl
      have hrole : n₀.role = .follower := by simp [← hn₀, Node.becomeFollower]
      have hidle : n₀.pendingReads = [] := by simp [← hn₀, Node.becomeFollower]
      have hterm₀ : n₀.term = r.term := by simp [← hn₀, Node.becomeFollower]
      have hid : n₀.id = id := (congrArg Node.id hbody :).trans h.rest.id_eq
      by_cases hcheck : n₀.candidateLogIsUpToDate r.lastLogTerm r.lastLogIndex = true
      · refine h.grantVote htrue hterm₀ hnewer.le hfree (by simp [hrole]) hidle hbody hcheck ?_
        simp [Node.step, Node.handleVoteRequest, hstale, hnewer, hn₀, hvoted, hcheck]
      · have hresponse : ∀ action ∈ n₀.voteResponse r.sender false, Plain action ∧
            Announces config guarded (σ.raised id r.term) ρ id action :=
          announces_voteResponse h.member hid fun hgranted => absurd hgranted Bool.false_ne_true
        refine Achieves.hardState [] (n₀.voteResponse r.sender false) h.refl h.stored h.rest ?_
          hbody (by simp) (fun action hmem => (hresponse action hmem).1)
          (Acts.raise h.valid h.tidy hterm.le) rfl ?_ ?_
          (fun action hmem => (hresponse action hmem).2) (by simp [hrole]) (by simp [hrole]) hidle
        · simp [Node.step, Node.handleVoteRequest, hstale, hnewer, hn₀, hcheck]
        · simp [Consensus.raised, hterm₀]
        · simp [Consensus.raised, hvoted, hfree]
    · have hsame : r.term = n.term := by omega
      cases hgrant : (n.votedFor == [] || n.votedFor == r.sender) &&
          n.candidateLogIsUpToDate r.lastLogTerm r.lastLogIndex with
      | true =>
        simp only [Bool.and_eq_true, Bool.or_eq_true, beq_iff_eq] at hgrant
        obtain ⟨hvote, hcheck⟩ := hgrant
        by_cases hnil : n.votedFor = []
        · have hrole : n.role ≠ .leader ∧ n.role ≠ .candidate :=
            ⟨fun hrole => h.votedFor_self (.inl hrole) hnil,
              fun hrole => h.votedFor_self (.inr hrole) hnil⟩
          have hdurable : Node.voteIsDurable { n with votedFor := r.sender } r.sender = false := by
            simp [Node.voteIsDurable, h.rest.durableVote, hnil, hsender]
          refine h.grantVote htrue hsame.symm (by omega) (hsame ▸ h.vote_nil_iff.mp hnil) hrole
            (h.idle hrole.1) rfl hcheck ?_
          simp [Node.step, Node.handleVoteRequest, hsame, hnil, hcheck, hdurable]
        · have hvoted : n.votedFor = r.sender := hvote.resolve_left hnil
          have hdurable : n.voteIsDurable r.sender = true := by
            simp [Node.voteIsDurable, h.rest.durableVote, h.rest.durableTerm, hvoted]
          have heta : ({ n with votedFor := r.sender } : Node) = n := by rw [← hvoted]
          refine h.answerVote true (fun _ => (h.vote_iff hsender).mp hvoted) ?_
          simp [Node.step, Node.handleVoteRequest, hsame, hvoted, hcheck, heta, hdurable]
      | false =>
        have hchanged : decide (n.term < r.term) = false := decide_eq_false hnewer
        refine h.refuseVote r.sender ?_
        simp only [Node.step, Node.handleVoteRequest, if_neg hstale, gt_iff_lt, hchanged, hgrant,
          Bool.false_eq_true, if_false, Bool.false_and, Bool.or_false]

theorem checkQuorumTimeout (h : Poised config guarded σ ρ id files disk n) :
    Achieves config guarded id files ρ .checkQuorumTimeout σ disk n := by
  by_cases hrole : n.role = .leader
  · by_cases hactive : n.activePeers.card + 1 < n.quorum
    · refine Achieves.plain (n.becomeFollower n.term [])
        [.resetElectionTimer, .lostLeadership n.term] h.refl h.stored h.rest ?_ ?_ (by simp [Plain])
        (by simp [Announces]) ?_ ?_ h.leads ?_ ?_ ?_
      · simp [Node.step, Node.checkQuorum, hrole, hactive]
      · simp [body, Node.becomeFollower]
      all_goals simp [Node.becomeFollower]
    · refine Achieves.plain { n with activePeers := ∅ } [.resetCheckQuorumTimer] h.refl
        h.stored h.rest ?_ rfl (by simp [Plain]) (by simp [Announces])
        (fun hrole => hrole) (by simp [hrole]) h.leads ?_ (by simp [hrole]) ?_
      · simp [Node.step, Node.checkQuorum, hrole, hactive]
      · intro hguarded _
        obtain ⟨hown, hmatched, hnext, hsnapshot, hcommit, hready, hreads⟩ :=
          h.replicates hguarded hrole
        exact ⟨hown, hmatched, hnext, hsnapshot, hcommit, hready, fun read hread =>
          ⟨(hreads read hread).positive, (hreads read hread).members,
            (hreads read hread).begun⟩⟩
      · exact fun _ hread => .inl (List.mem_map_of_mem hread)
  · refine h.unchanged [] ?_ (by simp) (by simp)
    simp [Node.step, Node.checkQuorum, hrole]

end Poised

end QuorumKV.Cluster
