import QuorumKV.Cluster.Progress

/-!
# What a Leader sends

A Leader whose log is durable sends a peer the entries from its next position
on, or its Snapshot when they are compacted.  Either way the message is true,
and the Leader may send on.
-/

namespace QuorumKV.Cluster

open Raft QuorumKV.Runtime Foundation

structure Transmits (config : Config) (guarded : Prop) (σ : Ideal) (ρ : Rounds) (id : NodeID)
    (n : Node) : Prop where
  id_eq : n.id = id
  others : ∀ peer ∈ n.peers, peer ≠ id
  holds : n.Holds (σ.log id)
  durable : n.durableLogIndex = n.lastLogIndex
  leads : Leads σ id n
  base_le : n.logBaseIndex ≤ n.commitIndex
  commit_le : n.commitIndex ≤ n.lastLogIndex
  known : guarded → σ.Known n.term ((σ.llog n.term).take n.commitIndex)
  replicates : guarded → Replicates config σ ρ id n

def Sends (n n' : Node) : Prop :=
  n' = { n with
    appendInFlight := n'.appendInFlight
    snapshotInFlight := n'.snapshotInFlight
    nextRequestID := n'.nextRequestID }

theorem Sends.trans {n n' n'' : Node} (h : Sends n n') (h' : Sends n' n'') : Sends n n'' := by
  unfold Sends at h h' ⊢
  rw [h'] at ⊢
  rw [h]

theorem Sends.body_eq {n n' : Node} (h : Sends n n') : body n' = body n := by
  rw [h]
  rfl

theorem nextFor_pos (n : Node) (peer : NodeID) : 0 < nextFor n peer := by
  unfold nextFor
  split <;> omega

theorem nextFor_le (n : Node) (peer : NodeID) : nextFor n peer ≤ n.lastLogIndex + 1 := by
  unfold nextFor
  split <;> omega

/-- The request of `sendAppendEntriesTo`, over a durable log. -/
def appendRequest (n : Node) (peer : NodeID) (readID : ReadID) : AppendEntries :=
  { sender := n.id
    term := n.term
    requestID := n.nextRequestID + 1
    prevLogIndex := nextFor n peer - 1
    prevLogTerm := n.termAt (nextFor n peer - 1)
    entries := n.entriesBatch (nextFor n peer) n.lastLogIndex
    leaderCommit := n.commitIndex
    readID := readID }

theorem sendAppendEntriesTo_eq {n : Node} (hdurable : n.durableLogIndex = n.lastLogIndex)
    (peer : NodeID) (readID : ReadID) :
    n.sendAppendEntriesTo peer readID =
      if (n.appendInFlight peer).requestID ≠ 0 then (n, [])
      else if nextFor n peer ≤ n.logBaseIndex then
        if n.snapshotInFlight peer ≠ 0 then (n, [])
        else
          ({ n with
              nextRequestID := n.nextRequestID + 1
              snapshotInFlight :=
                Function.update n.snapshotInFlight peer (n.nextRequestID + 1) },
            [.sendInstallSnapshot peer n.term (n.nextRequestID + 1) n.logBaseIndex
              n.logBaseTerm 0])
      else
        ({ n with
            nextRequestID := n.nextRequestID + 1
            appendInFlight := Function.update n.appendInFlight peer
              ⟨n.nextRequestID + 1, n.commitIndex⟩ },
          [.sendAppendEntries peer (appendRequest n peer readID)]) := by
  simp only [Node.sendAppendEntriesTo, hdurable, min_self, nextFor, appendRequest]

theorem sendAppendEntriesTo_sends {n : Node} (hdurable : n.durableLogIndex = n.lastLogIndex)
    (peer : NodeID) (readID : ReadID) : Sends n (n.sendAppendEntriesTo peer readID).1 := by
  rw [sendAppendEntriesTo_eq hdurable]
  split
  · rfl
  · split
    · split <;> rfl
    · rfl

namespace Transmits

variable {config : Config} {guarded : Prop} {σ : Ideal} {ρ : Rounds} {id : NodeID} {n : Node}

theorem lastIndex (h : Transmits config guarded σ ρ id n) :
    n.lastLogIndex = (σ.llog n.term).length := by
  rw [h.holds.lastIndex, h.leads.holds]

theorem holds_llog (h : Transmits config guarded σ ρ id n) : n.Holds (σ.llog n.term) :=
  h.leads.holds ▸ h.holds

theorem trueAppend (h : Transmits config guarded σ ρ id n) {peer : NodeID} (hpeer : peer ≠ id)
    {readID : ReadID} (hread : guarded → readID ≠ 0 → ρ n.term readID ≠ none)
    (hbase : n.logBaseIndex < nextFor n peer) :
    TrueAppend guarded σ ρ peer (appendRequest n peer readID) := by
  have hlast := h.lastIndex
  have hnext := nextFor_le n peer
  have hentries : ∃ count, min 1 count = min 1 (n.lastLogIndex + 1 - nextFor n peer) ∧
      n.entriesBatch (nextFor n peer) n.lastLogIndex =
        ((σ.llog n.term).drop (nextFor n peer - 1)).take count := by
    by_cases hle : nextFor n peer ≤ n.lastLogIndex
    · obtain ⟨count, hpos, heq⟩ := h.holds_llog.entriesBatch_eq hbase hle hlast.le
      exact ⟨count, by omega, heq⟩
    · refine ⟨0, by omega, ?_⟩
      rw [Node.entriesBatch_nil _ (by omega), List.take_zero]
  obtain ⟨count, hcount, hentries⟩ := hentries
  have hlength : (n.entriesBatch (nextFor n peer) n.lastLogIndex).length =
      min count (n.lastLogIndex - (nextFor n peer - 1)) := by
    rw [hentries, List.length_take, List.length_drop, hlast]
  refine
    { leads := by
        simp only [appendRequest, h.id_eq]
        exact h.leads.leads
      other := by
        simp only [appendRequest, h.id_eq]
        exact hpeer
      inside := ?_
      prevTerm := h.holds_llog.termAt_eq (by omega : n.logBaseIndex ≤ nextFor n peer - 1)
      entries_eq := ?_
      commit_le := by
        simp only [appendRequest]
        exact h.commit_le.trans hlast.le
      known := h.known
      offer := fun hguarded => ?_
      read := hread }
  · simp only [appendRequest, hlength, ← hlast]
    omega
  · simp only [appendRequest, hentries, List.length_take]
    exact List.take_eq_take_min
  · have hoffers := (h.replicates hguarded).next peer
    have hpos := nextFor_pos n peer
    have hposition : nextFor n peer - 1 + min 1 (min count (n.lastLogIndex - (nextFor n peer - 1)))
        = min (max (nextFor n peer) n.logBaseIndex) n.lastLogIndex := by
      omega
    simp only [appendRequest, hlength, hposition]
    exact hoffers

theorem trueSnapshot (h : Transmits config guarded σ ρ id n) {peer : NodeID} (hpeer : peer ≠ id)
    {requestID : Nat} (hnumbered : requestID ≠ 0)
    (hoffers : guarded → σ.Offers LogEntry.term n.term peer n.logBaseIndex n.logBaseIndex) :
    TrueSnapshot guarded σ peer id n.term requestID n.logBaseIndex n.logBaseTerm where
  leads := h.leads.leads
  other := hpeer
  numbered := hnumbered
  inside := h.holds_llog.base_le
  term_eq := h.holds_llog.baseTerm
  known hguarded := (h.known hguarded).front (take_prefix_take h.base_le)
  offer := hoffers

theorem offers_base (h : Transmits config guarded σ ρ id n)
    (hvalid : σ.Valid LogEntry.term config.Quorum) (hguarded : guarded) {peer : NodeID}
    (hbase : nextFor n peer ≤ n.logBaseIndex) :
    σ.Offers LogEntry.term n.term peer n.logBaseIndex n.logBaseIndex := by
  have hinside := h.holds_llog.base_le
  obtain ⟨hsound, hbound⟩ := hvalid.inv.llog_sound n.term
  have hpos := nextFor_pos n peer
  rcases (h.replicates hguarded).next peer with hown | hready
  · refine .inl (le_antisymm ?_ ?_)
    · obtain ⟨e, he, heq⟩ := termAt_mem (τ := LogEntry.term) (hpos.trans_le hbase) hinside
      rw [heq]
      exact hbound e he
    · have hle := hsound.sorted.termAt_le (by omega : nextFor n peer - 1 ≤ n.logBaseIndex) hinside
      rwa [hown] at hle
  · exact .inr (hready.mono (by omega))

theorem of_body (h : Transmits config guarded σ ρ id n) {n' : Node} (hbody : body n' = body n)
    (hreplicates : guarded → Replicates config σ ρ id n') :
    Transmits config guarded σ ρ id n' := by
  have hterm : n'.term = n.term := (congrArg Node.term hbody :)
  have hpeers : n'.peers = n.peers := (congrArg Node.peers hbody :)
  have hdurable : n'.durableLogIndex = n.durableLogIndex :=
    (congrArg Node.durableLogIndex hbody :)
  have hlast : n'.lastLogIndex = n.lastLogIndex := (congrArg Node.lastLogIndex hbody :)
  have hbase : n'.logBaseIndex = n.logBaseIndex := (congrArg Node.logBaseIndex hbody :)
  have hcommit : n'.commitIndex = n.commitIndex := (congrArg Node.commitIndex hbody :)
  exact
    { id_eq := (congrArg Node.id hbody :).trans h.id_eq
      others := by rw [hpeers]; exact h.others
      holds := holds_of_body h.holds hbody
      durable := by rw [hdurable, hlast]; exact h.durable
      leads := by
        obtain ⟨hlead, hlog, hown⟩ := h.leads
        exact ⟨hterm ▸ hlead, hterm ▸ hlog, hterm ▸ hown⟩
      base_le := by rw [hbase, hcommit]; exact h.base_le
      commit_le := by rw [hcommit, hlast]; exact h.commit_le
      known := by rw [hterm, hcommit]; exact h.known
      replicates := hreplicates }

theorem sent (h : Transmits config guarded σ ρ id n) {n' : Node} (hsends : Sends n n')
    (hsnapshot : guarded → ∀ f, n'.snapshotInFlight f ≠ 0 → 0 < n.logBaseIndex ∧
      σ.Offers LogEntry.term n.term f n.logBaseIndex n.logBaseIndex) :
    Transmits config guarded σ ρ id n' := by
  refine h.of_body hsends.body_eq fun hguarded => ?_
  unfold Sends at hsends
  generalize n'.appendInFlight = appends, n'.snapshotInFlight = snapshots,
    n'.nextRequestID = requestID at hsends hsnapshot
  subst hsends
  obtain ⟨hown, hmatched, hnext, -, hcommit, hready, hreads⟩ := h.replicates hguarded
  exact ⟨hown, hmatched, hnext, hsnapshot hguarded, hcommit, hready, fun read hread =>
    ⟨(hreads read hread).positive, (hreads read hread).members, (hreads read hread).begun⟩⟩

theorem sendAppendEntriesTo (h : Transmits config guarded σ ρ id n)
    (hvalid : σ.Valid LogEntry.term config.Quorum) {peer : NodeID} (hpeer : peer ≠ id)
    {readID : ReadID} (hread : guarded → readID ≠ 0 → ρ n.term readID ≠ none) :
    Transmits config guarded σ ρ id (n.sendAppendEntriesTo peer readID).1 ∧
      ∀ action ∈ (n.sendAppendEntriesTo peer readID).2,
        Plain action ∧ Announces config guarded σ ρ id action := by
  have hsends := sendAppendEntriesTo_sends h.durable peer readID
  have hold := fun hguarded => (h.replicates hguarded).snapshot
  rw [sendAppendEntriesTo_eq h.durable] at hsends ⊢
  split at hsends
  next hbusy =>
    simp only [if_pos hbusy]
    exact ⟨h, by simp⟩
  next hfree =>
    simp only [if_neg hfree] at hsends ⊢
    split at hsends
    next hbase =>
      simp only [if_pos hbase] at hsends ⊢
      split at hsends
      next hbusy =>
        simp only [if_pos hbusy]
        exact ⟨h, by simp⟩
      next hidle =>
        simp only [if_neg hidle] at hsends ⊢
        have hoffers := fun hguarded => h.offers_base hvalid hguarded hbase
        refine ⟨h.sent hsends fun hguarded f hf => ?_, ?_⟩
        · by_cases hsame : f = peer
          · rw [hsame]
            exact ⟨(nextFor_pos n peer).trans_le hbase, hoffers hguarded⟩
          · simp only [Function.update_of_ne hsame] at hf
            exact hold hguarded f hf
        · simp only [List.mem_singleton, forall_eq]
          exact ⟨trivial, h.trueSnapshot hpeer (Nat.succ_ne_zero _) hoffers⟩
    next hbase =>
      simp only [if_neg hbase] at hsends ⊢
      refine ⟨h.sent hsends hold, ?_⟩
      simp only [List.mem_singleton, forall_eq]
      exact ⟨trivial, h.trueAppend hpeer hread (Nat.not_le.mp hbase)⟩

theorem pendingReadFor_begun (h : Transmits config guarded σ ρ id n) (hguarded : guarded)
    {peer : NodeID} (hne : n.pendingReadFor peer ≠ 0) :
    ρ n.term (n.pendingReadFor peer) ≠ none := by
  unfold Node.pendingReadFor at hne ⊢
  cases hfound : n.pendingReads.find? fun read => peer ∉ read.acknowledgements with
  | none =>
      rw [hfound] at hne
      exact absurd rfl hne
  | some read =>
      obtain ⟨-, -, round, hround, -⟩ :=
        (h.replicates hguarded).reads read (List.mem_of_find?_eq_some hfound)
      simp [hround]

theorem sendToPeers (hvalid : σ.Valid LogEntry.term config.Quorum) (readID : ReadID)
    (peers : List NodeID) (hpeers : ∀ peer ∈ peers, peer ≠ id)
    (h : Transmits config guarded σ ρ id n)
    (hread : guarded → readID ≠ 0 → ρ n.term readID ≠ none) :
    Transmits config guarded σ ρ id (Node.sendToPeers readID peers n).1 ∧
      Sends n (Node.sendToPeers readID peers n).1 ∧
      ∀ action ∈ (Node.sendToPeers readID peers n).2,
        Plain action ∧ Announces config guarded σ ρ id action := by
  induction peers generalizing n with
  | nil => exact ⟨h, rfl, by simp [Node.sendToPeers]⟩
  | cons peer peers ih =>
      have hfirst : guarded → (if readID = 0 then n.pendingReadFor peer else readID) ≠ 0 →
          ρ n.term (if readID = 0 then n.pendingReadFor peer else readID) ≠ none := by
        intro hguarded hne
        split at hne
        next hzero =>
          rw [if_pos hzero]
          exact h.pendingReadFor_begun hguarded hne
        next hzero =>
          rw [if_neg hzero]
          exact hread hguarded hne
      have hsends := sendAppendEntriesTo_sends h.durable peer
        (if readID = 0 then n.pendingReadFor peer else readID)
      obtain ⟨hnext, hactions⟩ := h.sendAppendEntriesTo hvalid (hpeers peer (by simp)) hfirst
      have hterm : (n.sendAppendEntriesTo peer
          (if readID = 0 then n.pendingReadFor peer else readID)).1.term = n.term :=
        (congrArg Node.term hsends.body_eq :)
      obtain ⟨hlast, hrest, hothers⟩ := ih (fun other hmem => hpeers other (by simp [hmem])) hnext
        (by rw [hterm]; exact hread)
      refine ⟨hlast, hsends.trans hrest, fun action hmem => ?_⟩
      rcases List.mem_append.mp hmem with hmem | hmem
      · exact hactions action hmem
      · exact hothers action hmem

theorem sendAppendEntries (h : Transmits config guarded σ ρ id n)
    (hvalid : σ.Valid LogEntry.term config.Quorum) (readID : ReadID)
    (hread : guarded → readID ≠ 0 → ρ n.term readID ≠ none) :
    Transmits config guarded σ ρ id (n.sendAppendEntries readID).1 ∧
      Sends n (n.sendAppendEntries readID).1 ∧
      ∀ action ∈ (n.sendAppendEntries readID).2,
        Plain action ∧ Announces config guarded σ ρ id action :=
  sendToPeers hvalid readID n.peers h.others h hread

end Transmits

end QuorumKV.Cluster
