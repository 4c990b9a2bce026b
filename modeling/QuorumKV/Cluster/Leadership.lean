import QuorumKV.Cluster.Application
import QuorumKV.Cluster.Election
import QuorumKV.Cluster.Transmission

/-!
# The Leader

Reads, heartbeats, and what a Leader learns from its peers.  A rejection that
hints at a conflict leads to a position the Leader may offer next; a quorum of
matching positions is a commit of the consensus state; a quorum that answered a
read has not left the Leader's term when the read began.
-/

namespace QuorumKV.Cluster

open Raft QuorumKV.Runtime Session Foundation

theorem mem_insertRead {read other : PendingRead} {reads : List PendingRead}
    (h : other ∈ insertRead read reads) : other = read ∨ other ∈ reads := by
  induction reads with
  | nil => exact .inl (List.mem_singleton.mp h)
  | cons first rest ih =>
      unfold insertRead at h
      split at h
      · rcases List.mem_cons.mp h with rfl | h
        · exact .inl rfl
        · exact .inr h
      · split at h
        · rcases List.mem_cons.mp h with rfl | h
          · exact .inl rfl
          · exact .inr (List.mem_cons_of_mem _ h)
        · rcases List.mem_cons.mp h with rfl | h
          · exact .inr List.mem_cons_self
          · rcases ih h with rfl | h
            · exact .inl rfl
            · exact .inr (List.mem_cons_of_mem _ h)

/-! ## Quorums of the core -/

section Quorums

variable {config : Config} {σ : Ideal} {id : NodeID} {files : List Snapshot.State}
  {disk : Disk} {n : Node}

theorem AtRest.mem_peers (h : AtRest config σ id files disk n) {peer : NodeID} :
    peer ∈ n.peers ↔ peer ∈ config.members ∧ peer ≠ id := by
  rw [h.peers_eq, (List.perm_insertionSort _ _).mem_iff, Config.peers, List.mem_filter]
  simp

theorem AtRest.nodup_peers (h : AtRest config σ id files disk n) : n.peers.Nodup := by
  rw [h.peers_eq, (List.perm_insertionSort _ _).nodup_iff, Config.peers]
  exact config.nodup.filter _

theorem AtRest.length_peers (h : AtRest config σ id files disk n) (hmember : id ∈ config.members) :
    n.peers.length + 1 = config.members.length := by
  have hinsert : insert id n.peers.toFinset = config.members.toFinset := by
    ext peer
    simp only [Finset.mem_insert, List.mem_toFinset, h.mem_peers]
    by_cases hpeer : peer = id
    · simp [hpeer, hmember]
    · simp [hpeer]
  have hcard := congrArg Finset.card hinsert
  rwa [Finset.card_insert_of_notMem (by simp [h.mem_peers]),
    List.toFinset_card_of_nodup h.nodup_peers, List.toFinset_card_of_nodup config.nodup] at hcard

theorem AtRest.quorum (h : AtRest config σ id files disk n) (hmember : id ∈ config.members)
    {Q : Finset NodeID} (hmembers : ∀ f ∈ Q, f ∈ config.members) (hcard : n.quorum ≤ Q.card) :
    config.Quorum Q := by
  refine ⟨fun f hf => List.mem_toFinset.mpr (hmembers f hf), ?_⟩
  rwa [Node.quorum, h.length_peers hmember] at hcard

end Quorums

section Leading

variable {config : Config} {guarded : Prop} {σ : Ideal} {ρ : Rounds} {id : NodeID}
  {files : List Snapshot.State} {disk : Disk} {n : Node}

theorem Poised.transmits (h : Poised config guarded σ ρ id files disk n)
    (hrole : n.role = .leader) : Transmits config guarded σ ρ id n where
  id_eq := h.rest.id_eq
  others peer hpeer := (h.rest.mem_peers.mp hpeer).2
  holds := h.rest.holds
  durable := h.rest.durableLog
  leads := h.leads hrole
  base_le := h.rest.base_le.trans h.rest.applied_le
  commit_le := by
    rw [h.rest.commit_eq, h.rest.holds.lastIndex]
    exact h.stored.commit_le
  known hguarded := by
    rw [h.rest.term_eq, h.rest.commit_eq, ← h.rest.term_eq, ← (h.leads hrole).holds,
      h.rest.term_eq]
    exact h.stored.known hguarded
  replicates hguarded := h.replicates hguarded hrole

theorem Transmits.reading (h : Transmits config guarded σ ρ id n) (reads : List PendingRead)
    (hreads : guarded → ∀ read ∈ reads, Reads config ρ n read) :
    Transmits config guarded σ ρ id { n with pendingReads := reads } := by
  refine h.of_body rfl fun hguarded => ?_
  obtain ⟨hown, hmatched, hnext, hsnapshot, hcommit, hready, -⟩ := h.replicates hguarded
  exact ⟨hown, hmatched, hnext, hsnapshot, hcommit, hready, fun read hread =>
    ⟨(hreads hguarded read hread).positive, (hreads hguarded read hread).members,
      (hreads hguarded read hread).begun⟩⟩

theorem Poised.broadcast (h : Poised config guarded σ ρ id files disk n) {event : Event}
    (hrole : n.role = .leader) (n' : Node) (actions : List Action)
    (hstep : n.step event = (n', actions)) (hbody : body n' = body n)
    (htransmits : Transmits config guarded σ ρ id n')
    (hactions : ∀ action ∈ actions, Plain action ∧ Announces config guarded σ ρ id action)
    (hrole' : n'.role = .leader)
    (hbegun : ∀ read ∈ n'.pendingReads,
      read.id ∈ n.pendingReads.map PendingRead.id ∨ event = .confirmRead read.id) :
    Achieves config guarded id files ρ event σ disk n :=
  Achieves.plain n' actions h.refl h.stored h.rest hstep hbody
    (fun action hmem => (hactions action hmem).1) (fun action hmem => (hactions action hmem).2)
    (fun _ => hrole) (by simp [hrole']) h.leads (fun hguarded _ => htransmits.replicates hguarded)
    (by simp [hrole']) hbegun

theorem Poised.heartbeatTimeout (h : Poised config guarded σ ρ id files disk n) :
    Achieves config guarded id files ρ .heartbeatTimeout σ disk n := by
  by_cases hrole : n.role = .leader
  · generalize hn₀ : ({ n with appendInFlight := fun _ => {} } : Node) = n₀
    have hsends₀ : Sends n n₀ := by rw [← hn₀]; rfl
    have htransmits₀ : Transmits config guarded σ ρ id n₀ :=
      (h.transmits hrole).sent hsends₀ fun hguarded f hf =>
        (h.replicates hguarded hrole).snapshot f (by rwa [← hn₀] at hf)
    obtain ⟨htransmits, hsends, hactions⟩ :=
      htransmits₀.sendAppendEntries h.valid 0 (by simp)
    have hall := hsends₀.trans hsends
    refine h.broadcast hrole _ (.resetHeartbeatTimer :: (n₀.sendAppendEntries 0).2) ?_
      hall.body_eq htransmits ?_ ?_ ?_
    · simp only [Node.step, Node.heartbeatRound, hn₀]
      rw [if_neg (not_not.mpr hrole)]
    · intro action hmem
      rcases List.mem_cons.mp hmem with rfl | hmem
      · exact ⟨trivial, trivial⟩
      · exact hactions action hmem
    · rw [hall]
      exact hrole
    · rw [hall]
      exact fun read hread => .inl (List.mem_map_of_mem hread)
  · refine h.unchanged [] ?_ (by simp) (by simp)
    simp [Node.step, Node.heartbeatRound, hrole]

theorem Poised.confirmRead (h : Poised config guarded σ ρ id files disk n) {readID : ReadID}
    (hround : guarded → n.role = .leader → n.readReady = true → readID ≠ 0 ∧
      ∃ round, ρ n.term readID = some round ∧ id ∈ round.reached) :
    Achieves config guarded id files ρ (.confirmRead readID) σ disk n := by
  by_cases hrole : n.role = .leader
  · cases hready : n.readReady with
    | false =>
        refine h.unchanged [.readRejected readID []] ?_ (by simp [Plain]) (by simp [Announces])
        simp [Node.step, Node.confirmRead, hrole, hready]
    | true =>
        have hreads : guarded → ∀ read ∈
            insertRead { id := readID, acknowledgements := {n.id} } n.pendingReads,
            Reads config ρ n read := by
          intro hguarded read hmem
          rcases mem_insertRead hmem with rfl | hmem
          · obtain ⟨hpositive, round, hround, hreached⟩ := hround hguarded hrole hready
            refine ⟨hpositive, ?_, round, hround, ?_, by simp⟩
            · simp [h.rest.id_eq, h.member]
            · simpa [h.rest.id_eq] using hreached
          · exact (h.replicates hguarded hrole).reads read hmem
        have htransmits₀ := (h.transmits hrole).reading _ hreads
        obtain ⟨htransmits, hsends, hactions⟩ :=
          htransmits₀.sendAppendEntries h.valid readID (by
            intro hguarded _
            obtain ⟨-, round, hround, -⟩ := hround hguarded hrole hready
            simp [hround])
        refine h.broadcast hrole _ _ ?_ (hsends.body_eq.trans rfl) htransmits hactions ?_ ?_
        · simp only [Node.step, Node.confirmRead]
          rw [if_neg (not_not.mpr hrole), if_neg (by simp [hready])]
        · rw [hsends]
          exact hrole
        · rw [hsends]
          intro read hread
          rcases mem_insertRead hread with rfl | hread
          · exact .inr rfl
          · exact .inl (List.mem_map_of_mem hread)
  · refine h.unchanged [.readRejected readID n.leaderID] ?_ (by simp [Plain]) (by simp [Announces])
    simp [Node.step, Node.confirmRead, hrole]

/-! ## Failed deliveries and Snapshot responses -/

theorem Poised.appendEntriesFailed (h : Poised config guarded σ ρ id files disk n)
    (dest : NodeID) (requestID : Nat) :
    Achieves config guarded id files ρ (.appendEntriesFailed dest requestID) σ disk n := by
  generalize hn' : (n.handleAppendEntriesFailed dest requestID).1 = n'
  have hsends : Sends n n' := by
    rw [← hn', Node.handleAppendEntriesFailed]
    dsimp only
    split <;> split <;> rfl
  have hfewer : ∀ f, n'.snapshotInFlight f ≠ 0 → n.snapshotInFlight f ≠ 0 := by
    intro f hf
    have hupdate : n'.snapshotInFlight = n.snapshotInFlight ∨
        n'.snapshotInFlight = Function.update n.snapshotInFlight dest 0 := by
      rw [← hn', Node.handleAppendEntriesFailed]
      dsimp only
      split <;> split <;> simp
    rcases hupdate with heq | heq
    · rwa [heq] at hf
    · rw [heq] at hf
      by_cases hdest : f = dest
      · simp [hdest] at hf
      · rwa [Function.update_of_ne hdest] at hf
  have hrole : n'.role = n.role := by rw [hsends]
  have hreads : n'.pendingReads = n.pendingReads := by rw [hsends]
  refine Achieves.plain n' [] h.refl h.stored h.rest ?_ hsends.body_eq (by simp) (by simp)
    (fun hrole' => hrole ▸ hrole') (fun hrole' => ?_) h.leads (fun hguarded hrole' => ?_)
    (fun hrole' => ?_) (fun read hread => ?_)
  · rw [← hn']
    rfl
  · obtain ⟨hvotes, hown, hcand, hfresh⟩ := h.campaigns (hrole ▸ hrole')
    rw [hsends]
    exact ⟨hvotes, hown, hcand, hfresh⟩
  · rw [hrole] at hrole'
    exact ((h.transmits hrole').sent hsends fun hguarded f hf =>
      (h.replicates hguarded hrole').snapshot f (hfewer f hf)).replicates hguarded
  · rw [hreads]
    exact h.idle (hrole ▸ hrole')
  · rw [hreads] at hread
    exact .inl (List.mem_map_of_mem hread)

theorem Reads.of_term {n' : Node} {read : PendingRead} (h : Reads config ρ n read)
    (hterm : n'.term = n.term) : Reads config ρ n' read :=
  ⟨h.positive, h.members, hterm ▸ h.begun⟩

theorem offers_of_follows {T previous position : Nat} {f : NodeID} (h : σ.Follows T f) :
    σ.Offers LogEntry.term T f previous position :=
  .inr (.inl h)

theorem Transmits.progress (h : Transmits config guarded σ ρ id n) {n' : Node} (peer : NodeID)
    (matched next : Nat) (hbody : body n' = body n)
    (hmatch : n'.matchIndex = Function.update n.matchIndex peer matched)
    (hnextIndex : n'.nextIndex = Function.update n.nextIndex peer next)
    (hready : n'.readReady = n.readReady) (hreads : n'.pendingReads = n.pendingReads)
    (hfewer : ∀ f, n'.snapshotInFlight f ≠ 0 → n.snapshotInFlight f ≠ 0)
    (hmatched : guarded → matched ≤ σ.ack peer n.term)
    (hoffers : guarded → σ.Offers LogEntry.term n.term peer (nextFor n' peer - 1)
      (min (max (nextFor n' peer) n.logBaseIndex) n.lastLogIndex)) :
    Transmits config guarded σ ρ id n' := by
  have hterm : n'.term = n.term := (congrArg Node.term hbody :)
  have hlast : n'.lastLogIndex = n.lastLogIndex := (congrArg Node.lastLogIndex hbody :)
  have hbase : n'.logBaseIndex = n.logBaseIndex := (congrArg Node.logBaseIndex hbody :)
  have hcommit : n'.commitIndex = n.commitIndex := (congrArg Node.commitIndex hbody :)
  refine h.of_body hbody fun hguarded => ?_
  have hold := h.replicates hguarded
  refine ⟨?_, fun f => ?_, fun f => ?_, fun f hf => ?_, ?_, ?_, fun read hread => ?_⟩
  · rw [hterm]
    exact hold.own
  · rw [hmatch, hterm]
    by_cases hpeer : f = peer
    · subst hpeer
      rw [Function.update_self]
      exact hmatched hguarded
    · rw [Function.update_of_ne hpeer]
      exact hold.matched f
  · rw [hterm, hbase, hlast]
    by_cases hpeer : f = peer
    · rw [hpeer]
      exact hoffers hguarded
    · have hsame : nextFor n' f = nextFor n f := by
        simp only [nextFor, hnextIndex, hlast, Function.update_of_ne hpeer]
      rw [hsame]
      exact hold.next f
  · rw [hterm, hbase]
    exact hold.snapshot f (hfewer f hf)
  · rw [hterm, hcommit]
    exact hold.commit_ge
  · rw [hterm, hready]
    exact hold.ready
  · rw [hreads] at hread
    exact (hold.reads read hread).of_term hterm

theorem Poised.installSnapshotResponse (h : Poised config guarded σ ρ id files disk n)
    {r : InstallSnapshotResponse} (htrue : TrueSnapshotResponse config guarded σ id r) :
    Achieves config guarded id files ρ (.installSnapshotResponse r) σ disk n := by
  by_cases hnewer : n.term < r.term
  · refine h.stepDown hnewer ?_
    simp only [Node.step, Node.handleInstallSnapshotResponse, if_pos hnewer]
  by_cases hignored : n.role ≠ .leader ∨ r.term ≠ n.term ∨
      n.snapshotInFlight r.sender ≠ r.requestID
  · refine h.unchanged [] ?_ (by simp) (by simp)
    simp only [Node.step, Node.handleInstallSnapshotResponse, if_neg hnewer, if_pos hignored]
  obtain ⟨hrole, hterm, hrequest⟩ : n.role = .leader ∧ r.term = n.term ∧
      n.snapshotInFlight r.sender = r.requestID := by
    simpa only [not_or, not_not] using hignored
  have htransmits := h.transmits hrole
  have hfewer : ∀ f, Function.update n.snapshotInFlight r.sender 0 f ≠ 0 →
      n.snapshotInFlight f ≠ 0 := by
    intro f hf
    by_cases hsender : f = r.sender
    · simp [hsender] at hf
    · rwa [Function.update_of_ne hsender] at hf
  cases hsuccess : r.success with
  | false =>
      refine h.broadcast hrole
        { n with snapshotInFlight := Function.update n.snapshotInFlight r.sender 0 } [] ?_ rfl
        ?_ (by simp) hrole (fun read hread => .inl (List.mem_map_of_mem hread))
      · simp only [Node.step, Node.handleInstallSnapshotResponse, if_neg hnewer, if_neg hignored,
          hsuccess, if_true]
      · exact htransmits.sent rfl fun hguarded f hf =>
          (h.replicates hguarded hrole).snapshot f (hfewer f hf)
  | true =>
      cases hdone : r.done with
      | false =>
          refine h.unchanged [.sendInstallSnapshot r.sender n.term r.requestID n.logBaseIndex
            n.logBaseTerm r.nextOffset] ?_ (by simp [Plain]) ?_
          · simp only [Node.step, Node.handleInstallSnapshotResponse, if_neg hnewer,
              if_neg hignored, hsuccess, hdone, Bool.true_eq_false, if_false, if_true]
          · simp only [List.mem_singleton, forall_eq]
            refine htransmits.trueSnapshot htrue.other htrue.numbered fun hguarded => ?_
            refine ((h.replicates hguarded hrole).snapshot r.sender ?_).2
            rw [hrequest]
            exact htrue.numbered
      | true =>
          have hmatched : guarded → r.snapshotIndex ≤ σ.ack r.sender n.term ∧
              σ.Follows n.term r.sender := fun hguarded =>
            hterm ▸ htrue.installed hguarded hsuccess hdone
          generalize hn₁ : ({ n with
            snapshotInFlight := Function.update n.snapshotInFlight r.sender 0
            matchIndex := Function.update n.matchIndex r.sender
              (max (n.matchIndex r.sender) r.snapshotIndex)
            nextIndex := Function.update n.nextIndex r.sender (r.snapshotIndex + 1) } : Node) = n₁
          have hbody₁ : body n₁ = body n := by rw [← hn₁]; rfl
          have htransmits₁ : Transmits config guarded σ ρ id n₁ := by
            refine htransmits.progress r.sender (max (n.matchIndex r.sender) r.snapshotIndex)
              (r.snapshotIndex + 1) hbody₁ ?_ ?_ ?_ ?_ ?_
              (fun hguarded => max_le ((h.replicates hguarded hrole).matched _)
                (hmatched hguarded).1)
              (fun hguarded => offers_of_follows (hmatched hguarded).2)
            all_goals rw [← hn₁]
            exact hfewer
          have hsends := sendAppendEntriesTo_sends htransmits₁.durable r.sender
            (n₁.pendingReadFor r.sender)
          obtain ⟨htransmits', hactions⟩ := htransmits₁.sendAppendEntriesTo h.valid htrue.other
            fun hguarded hne => htransmits₁.pendingReadFor_begun hguarded hne
          refine h.broadcast hrole _ _ ?_ (hsends.body_eq.trans hbody₁) htransmits' hactions ?_ ?_
          · simp only [Node.step, Node.handleInstallSnapshotResponse, if_neg hnewer,
              if_neg hignored, hsuccess, hdone, Bool.true_eq_false, if_false, hn₁]
          · rw [hsends, ← hn₁]
            exact hrole
          · rw [hsends, ← hn₁]
            exact fun read hread => .inl (List.mem_map_of_mem hread)

/-! ## Responses to append requests -/

theorem termAt_pos_le {log : List LogEntry} {position : Nat}
    (h : termAt LogEntry.term log position ≠ 0) : 0 < position ∧ position ≤ log.length := by
  constructor
  · by_contra hzero
    obtain rfl : position = 0 := by omega
    exact h (termAt_zero _)
  · by_contra hbeyond
    exact h (termAt_beyond (Nat.not_le.mp hbeyond))

theorem termAt_shared {left right : List LogEntry} {count : Nat} (hfront : left.take count <+: right)
    (position : Nat) (hle : position ≤ count) (hinside : count ≤ left.length) :
    termAt LogEntry.term right position = termAt LogEntry.term left position := by
  rw [termAt_front hfront (by simp; omega), termAt_take hle]

theorem nextIndexFromConflict_pos (n : Node) (r : AppendEntriesResponse) :
    0 < n.nextIndexFromConflict r ∧ n.nextIndexFromConflict r ≤ n.lastLogIndex + 1 := by
  simp only [Node.nextIndexFromConflict]
  split <;> omega

theorem nextIndexFromConflict_eq {r : AppendEntriesResponse} {next : Nat}
    (h : n.conflictNext r = next) (hpos : 0 < next) (hle : next ≤ n.lastLogIndex + 1) :
    n.nextIndexFromConflict r = next := by
  simp only [Node.nextIndexFromConflict, h]
  rw [if_neg hpos.ne', min_eq_left hle]

theorem Transmits.offers_of_hint (h : Transmits config guarded σ ρ id n)
    (hvalid : σ.Valid LogEntry.term config.Quorum) {r : AppendEntriesResponse} {f : NodeID}
    (hhint : σ.Hint LogEntry.term n.term f r.conflictTerm r.conflictIndex) :
    σ.Offers LogEntry.term n.term f (n.nextIndexFromConflict r - 1)
      (min (max (n.nextIndexFromConflict r) n.logBaseIndex) n.lastLogIndex) := by
  have hlast := h.lastIndex
  have hbase := h.holds_llog.base_le
  have hsorted := (hvalid.inv.llog_sound n.term).1.sorted
  have hfsorted := (hvalid.inv.log_sound f).1.sorted
  rcases hhint with hfollows | ⟨hterm, ⟨hzero, hshort, hinside⟩ |
    ⟨hne, later, hle, hinside, hfirst, hlater, hother⟩⟩
  · exact offers_of_follows hfollows
  · have hnext : n.nextIndexFromConflict r = r.conflictIndex := by
      refine nextIndexFromConflict_eq ?_ (by omega) (by omega)
      rw [Node.conflictNext, if_neg (not_not.mpr hzero)]
    refine .inr (.inr ⟨hterm, fun hheld => ?_⟩)
    have hlength := hheld.length_le
    rw [hnext, List.length_take] at hlength
    omega
  · have hfpos := termAt_pos_le (hfirst.trans_ne hne)
    have hlpos := termAt_pos_le (hlater.trans_ne hne)
    cases hfound : n.lastOfTerm r.conflictTerm n.lastLogIndex with
    | some j =>
        obtain ⟨hjpos, hjle, hjterm, hjlast⟩ := Node.lastOfTerm_some hfound
        obtain ⟨hjbase, hjeq⟩ := h.holds_llog.termAt_of_ne (hjterm.trans_ne hne)
        rw [hjterm] at hjeq
        have hnext : n.nextIndexFromConflict r = j + 1 := by
          refine nextIndexFromConflict_eq ?_ (by omega) (by omega)
          simp only [Node.conflictNext, if_pos hne, hfound]
        rw [hnext, Nat.add_sub_cancel]
        rcases Nat.lt_or_eq_of_le hjle with hjlt | rfl
        · -- The position after the last one of the term cannot be shared.
          rw [show min (max (j + 1) n.logBaseIndex) n.lastLogIndex = j + 1 by omega]
          refine .inr (.inr ⟨hterm, fun hheld => ?_⟩)
          have hnextTerm : termAt LogEntry.term (σ.llog n.term) (j + 1) ≠ r.conflictTerm := by
            rw [← h.holds_llog.termAt_eq (by omega)]
            exact hjlast (j + 1) (by omega) hjlt
          have hgreater := hsorted.termAt_le (Nat.le_succ j) (by omega)
          by_cases hlate : later ≤ j
          · exact hother ((termAt_shared hheld later (by omega) (by omega)).symm.trans hlater)
          · have hsame := termAt_shared hheld (j + 1) le_rfl (by omega)
            have hbound := hfsorted.termAt_le (by omega : j + 1 ≤ later) hlpos.2
            rw [Nat.succ_eq_add_one] at hgreater
            omega
        · refine .inl ?_
          rw [← hjeq]
          have hown := h.leads.last
          rw [lastTerm, ← hlast, ← hjeq] at hown
          exact hown
    | none =>
        have hnone := Node.lastOfTerm_none hfound
        have hnext : n.nextIndexFromConflict r = r.conflictIndex := by
          refine nextIndexFromConflict_eq ?_ (by omega) (by omega)
          simp only [Node.conflictNext, if_pos hne, hfound]
        rw [hnext, show min (max r.conflictIndex n.logBaseIndex) n.lastLogIndex =
          max r.conflictIndex n.logBaseIndex by omega]
        refine .inr (.inr ⟨hterm, fun hheld => ?_⟩)
        have hshared := fun position hposition =>
          termAt_shared hheld position hposition (by omega)
        by_cases habove : n.logBaseIndex ≤ r.conflictIndex
        · refine hnone r.conflictIndex hfpos.1 (by omega) ?_
          rw [h.holds_llog.termAt_eq habove, ← hshared _ (le_max_left _ _), hfirst]
        · by_cases hlate : later ≤ n.logBaseIndex
          · exact hother ((hshared later (by omega)).symm.trans hlater)
          · have hlower := hfsorted.termAt_le (by omega : r.conflictIndex ≤ n.logBaseIndex)
              (by omega)
            have hupper := hfsorted.termAt_le (by omega : n.logBaseIndex ≤ later) hlpos.2
            refine hnone n.logBaseIndex (by omega) (by omega) ?_
            rw [h.holds_llog.termAt_eq le_rfl, ← hshared _ (le_max_right _ _)]
            omega

theorem Transmits.recordResponse (h : Transmits config guarded σ ρ id n)
    (hvalid : σ.Valid LogEntry.term config.Quorum) {dest : NodeID} {r : AppendEntriesResponse}
    (htrue : TrueResponse config guarded σ ρ dest r) (hterm : r.term = n.term)
    (hgenuine : guarded → r.success = false → r.conflictIndex ≠ 0) :
    Transmits config guarded σ ρ id (n.recordResponse r) := by
  unfold Node.recordResponse
  dsimp only
  cases hsuccess : r.success with
  | true =>
      have hmatched : guarded → r.matchIndex ≤ σ.ack r.sender n.term ∧
          σ.Follows n.term r.sender := fun hguarded => hterm ▸ htrue.matched hguarded hsuccess
      rw [if_pos rfl]
      exact h.progress r.sender (max (n.matchIndex r.sender) r.matchIndex)
        (max (n.matchIndex r.sender) r.matchIndex + 1) rfl rfl rfl rfl rfl (fun _ hf => hf)
        (fun hguarded => max_le ((h.replicates hguarded).matched _) (hmatched hguarded).1)
        (fun hguarded => offers_of_follows (hmatched hguarded).2)
  | false =>
      obtain ⟨hpos, hle⟩ := nextIndexFromConflict_pos n r
      rw [if_neg (by simp)]
      generalize hn' : ({ n with
        appendInFlight := Function.update n.appendInFlight r.sender {}
        activePeers := insert r.sender n.activePeers
        nextIndex := Function.update n.nextIndex r.sender (n.nextIndexFromConflict r) } : Node) = n'
      have hnext : nextFor n' r.sender = n.nextIndexFromConflict r := by
        rw [← hn', nextFor]
        simp only [Function.update_self]
        rw [if_neg (by omega)]
      refine h.progress r.sender (n.matchIndex r.sender) (n.nextIndexFromConflict r) ?_ ?_ ?_ ?_ ?_
        ?_ (fun hguarded => (h.replicates hguarded).matched _) (fun hguarded => ?_)
      · rw [← hn']
        rfl
      · rw [← hn', Function.update_eq_self]
      · rw [← hn']
      · rw [← hn']
      · rw [← hn']
      · rw [← hn']
        exact fun _ hf => hf
      · have hhint := htrue.hint hguarded hsuccess (hgenuine hguarded hsuccess)
        rw [hterm] at hhint
        rw [hnext]
        exact h.offers_of_hint hvalid hhint

end Leading

end QuorumKV.Cluster
