import QuorumKV.Cluster.Invariant

/-!
# What the steps of one node leave true

Whatever a node does, the messages already sent stay true, and so does
everything about the disks, cores, and processes of the other nodes.
-/

namespace QuorumKV.Cluster

open Raft QuorumKV.Runtime Session Foundation

/-! ## Growing logs and traces -/

theorem Carries.mono {log other : List LogEntry} {position : Nat} {request : Request}
    (h : Carries log position request) (hfront : log <+: other) :
    Carries other position request := by
  obtain ⟨hpos, entry, hentry, hmatches⟩ := h
  obtain ⟨rest, rfl⟩ := hfront
  exact ⟨hpos, entry, by
    rw [List.getElem?_append_left (List.getElem?_eq_some_iff.mp hentry).1, hentry], hmatches⟩

theorem Carries.le_length {log : List LogEntry} {position : Nat} {request : Request}
    (h : Carries log position request) : position ≤ log.length := by
  obtain ⟨hpos, entry, hentry, -⟩ := h
  have := (List.getElem?_eq_some_iff.mp hentry).1
  omega

theorem Image.mono {config : Config} {log other : List LogEntry} {file : Snapshot.State}
    (h : Image config log file) (hfront : log <+: other) : Image config other file := by
  obtain ⟨hle, heq⟩ := h
  refine ⟨hle.trans hfront.length_le, ?_⟩
  rwa [take_eq_take hfront hle, termAt_front hfront hle]

theorem Covers.mono {σ σ' : Ideal} {shown : List Observation} {count : Nat}
    (h : Covers σ shown count) (hfront : σ.chosen <+: σ'.chosen) : Covers σ' shown count := by
  intro node waiter result hmem hsucceeds
  obtain ⟨position, hle, hcarries⟩ := h node waiter result hmem hsucceeds
  exact ⟨position, hle, hcarries.mono hfront⟩

theorem Covers.le {σ : Ideal} {shown : List Observation} {count other : Nat}
    (h : Covers σ shown count) (hle : count ≤ other) : Covers σ shown other := by
  intro node waiter result hmem hsucceeds
  obtain ⟨position, hposition, hcarries⟩ := h node waiter result hmem hsucceeds
  exact ⟨position, hposition.trans hle, hcarries⟩

theorem Stored.commit_chosen {guarded : Prop} {σ : Ideal} {id : NodeID}
    {files : List Snapshot.State} {disk : Disk} (h : Stored guarded σ id files disk)
    (hagreed : σ.Agreed) (hguarded : guarded) :
    (σ.log id).take disk.commitIndex = σ.chosen.take disk.commitIndex := by
  have hfront := (h.known hguarded).chosen hagreed
  have hlength : ((σ.log id).take disk.commitIndex).length = disk.commitIndex := by
    simpa using h.commit_le
  rw [take_eq_take hfront hlength.ge, List.take_take, min_self]

theorem Stored.commit_le_chosen {guarded : Prop} {σ : Ideal} {id : NodeID}
    {files : List Snapshot.State} {disk : Disk} (h : Stored guarded σ id files disk)
    (hagreed : σ.Agreed) (hguarded : guarded) :
    disk.commitIndex ≤ σ.chosen.length := by
  have hfront := ((h.known hguarded).chosen hagreed).length_le
  rwa [List.length_take, min_eq_left h.commit_le] at hfront

section Acting

variable {config : Config} {guarded prompt : Prop} {σ σ' : Ideal} {ρ ρ' : Rounds} {id : NodeID}
  (hacts : Acts config id σ σ')

include hacts

/-! ## Messages -/

theorem TrueVoteRequest.mono {r : VoteRequest} (h : TrueVoteRequest σ r) :
    TrueVoteRequest σ' r := by
  have hcand := hacts.history.cand_eq _ _ h.campaigns
  exact ⟨hacts.history.vote_eq _ _ _ h.campaigns, hcand ▸ h.lastIndex, hcand ▸ h.lastTerm_eq⟩

theorem TrueVoteResponse.mono {dest : NodeID} {r : VoteResponse}
    (h : TrueVoteResponse config σ dest r) : TrueVoteResponse config σ' dest r :=
  ⟨h.member, fun hgranted => hacts.history.vote_eq _ _ _ (h.granted hgranted)⟩

theorem TrueAppend.mono (hgrows : Rounds.Grows σ id ρ ρ') {dest : NodeID} {r : AppendEntries}
    (h : TrueAppend guarded σ ρ dest r) : TrueAppend guarded σ' ρ' dest r := by
  have hfront := hacts.history.llog_le r.term
  have hprev : r.prevLogIndex ≤ (σ.llog r.term).length := (Nat.le_add_right _ _).trans h.inside
  refine ⟨hacts.history.lead_eq _ _ h.leads, h.other, h.inside.trans hfront.length_le, ?_, ?_,
    h.commit_le.trans hfront.length_le, fun hg => ?_, fun hg => ?_, fun hg hne => ?_⟩
  · rw [termAt_front hfront hprev, ← h.prevTerm]
  · obtain ⟨rest, hrest⟩ := hfront
    rw [← hrest, List.drop_append_of_le_length hprev, List.take_append_of_le_length]
    · exact h.entries_eq
    · rw [List.length_drop]
      have := h.inside
      omega
  · rw [take_eq_take hfront h.commit_le]
    exact (h.known hg).extend hacts.history
  · refine hacts.offers (h.offer hg) hprev ?_
    exact (Nat.add_le_add_left (min_le_right _ _) _).trans h.inside
  · obtain ⟨round, hround⟩ := Option.ne_none_iff_exists'.mp (h.read hg hne)
    simp [hgrows.keeps _ _ _ hround]

theorem TrueResponse.mono (hgrows : Rounds.Grows σ id ρ ρ') {dest : NodeID}
    {r : AppendEntriesResponse} (h : TrueResponse config guarded σ ρ dest r) :
    TrueResponse config guarded σ' ρ' dest r := by
  refine ⟨h.member, h.other, fun hg hsuccess => ?_, fun hg hsuccess hne => ?_,
    fun hg hne hgenuine => ?_⟩
  · obtain ⟨hmatched, hfollows⟩ := h.matched hg hsuccess
    exact ⟨hmatched.trans (hacts.history.ack_le _ _), hacts.follows hfollows⟩
  · exact hacts.hint (h.hint hg hsuccess hne)
  · obtain ⟨round, hround, hreached⟩ := h.read hg hne hgenuine
    exact ⟨round, hgrows.keeps _ _ _ hround, hreached⟩

theorem TrueSnapshot.mono {dest sender : NodeID} {term requestID index snapshotTerm : Nat}
    (h : TrueSnapshot guarded σ dest sender term requestID index snapshotTerm) :
    TrueSnapshot guarded σ' dest sender term requestID index snapshotTerm := by
  have hfront := hacts.history.llog_le term
  refine ⟨hacts.history.lead_eq _ _ h.leads, h.other, h.numbered,
    h.inside.trans hfront.length_le, ?_, fun hg => ?_, fun hg => ?_⟩
  · rw [termAt_front hfront h.inside, ← h.term_eq]
  · rw [take_eq_take hfront h.inside]
    exact (h.known hg).extend hacts.history
  · exact hacts.offers (h.offer hg) h.inside h.inside

theorem Owned.mono {node : NodeID} {file : Snapshot.State}
    (h : Owned config guarded σ node file) : Owned config guarded σ' node file :=
  ⟨h.1, fun hg => (h.2 hg).mono hacts.history.chosen_le⟩

theorem Fits.mono {node : NodeID} {index offset : Nat}
    (h : Fits config guarded σ node index offset) : Fits config guarded σ' node index offset := by
  obtain ⟨file, howned, hindex, hle⟩ := h
  exact ⟨file, howned.mono hacts, hindex, hle⟩

theorem TrueInstall.mono {dest : NodeID} {r : InstallSnapshot}
    (h : TrueInstall config guarded σ dest r) : TrueInstall config guarded σ' dest r :=
  ⟨h.toTrueSnapshot.mono hacts, fun hsuccess => (h.fits hsuccess).mono hacts⟩

theorem TrueSnapshotResponse.mono {dest : NodeID} {r : InstallSnapshotResponse}
    (h : TrueSnapshotResponse config guarded σ dest r) :
    TrueSnapshotResponse config guarded σ' dest r := by
  refine ⟨h.other, h.numbered, fun hsuccess => (h.fits hsuccess).mono hacts,
    fun hg hsuccess hdone => ?_⟩
  obtain ⟨hinstalled, hfollows⟩ := h.installed hg hsuccess hdone
  exact ⟨hinstalled.trans (hacts.history.ack_le _ _), hacts.follows hfollows⟩

theorem Truthful.mono (hgrows : Rounds.Grows σ id ρ ρ') {dest : NodeID} {message : Message}
    (h : Truthful config guarded σ ρ dest message) :
    Truthful config guarded σ' ρ' dest message := by
  cases message with
  | preVoteRequest r => trivial
  | preVoteResponse r => trivial
  | voteRequest r => exact TrueVoteRequest.mono hacts h
  | voteResponse r => exact TrueVoteResponse.mono hacts h
  | appendEntries r => exact TrueAppend.mono hacts hgrows h
  | appendEntriesResponse r => exact TrueResponse.mono hacts hgrows h
  | installSnapshot chunk =>
      exact ⟨TrueSnapshot.mono hacts h.1, Owned.mono hacts h.2⟩
  | installSnapshotResponse r => exact TrueSnapshotResponse.mono hacts h

/-! ## The trace and the reads -/

theorem TrueRounds.mono (h : TrueRounds config σ ρ) : TrueRounds config σ' ρ := by
  intro T readID round hround
  obtain ⟨hled, hreached, hfloor, hcommitted⟩ := h T readID round hround
  refine ⟨hacts.history.led hled, fun f hle => hreached f ((hacts.history.term_le f).trans hle),
    hfloor.trans hacts.history.chosen_le.length_le, fun hquorum => ?_⟩
  exact (hcommitted hquorum).trans (hacts.history.lcommit_le T)

theorem TrueObservation.mono {trace : List Observation} (shown : List Observation)
    {observation : Observation} (h : TrueObservation config prompt σ trace observation) :
    TrueObservation config prompt σ' (trace ++ shown) observation := by
  have hfront := hacts.history.chosen_le
  cases observation with
  | applied node entry =>
      refine ⟨h.1, ?_⟩
      obtain ⟨rest, hrest⟩ := hfront
      rw [← hrest, List.getElem?_append_left (List.getElem?_eq_some_iff.mp h.2).1, h.2]
  | restored node index term sessions =>
      obtain ⟨hle, hterm, hsessions⟩ := h
      refine ⟨hle.trans hfront.length_le, ?_, ?_⟩
      · rw [termAt_front hfront hle, hterm]
      · rw [take_eq_take hfront hle, hsessions]
  | readConfirmed node readID since sessions =>
      obtain ⟨hsince, count, hle, hsessions, hcovers⟩ := h
      refine ⟨?_, count, hle.trans hfront.length_le, ?_, ?_⟩
      · rw [List.length_append]
        omega
      · rw [take_eq_take hfront hle, hsessions]
      · rw [List.take_append_of_le_length hsince]
        exact hcovers.mono hfront
  | answered node waiter result =>
      intro hprompt session sequence hrequest hrejected hfailure
      obtain ⟨hsince, count, hle, hcovers, hresult⟩ :=
        h hprompt session sequence hrequest hrejected hfailure
      refine ⟨?_, count, hle.trans hfront.length_le, ?_, ?_⟩
      · rw [List.length_append]
        omega
      · rw [List.take_append_of_le_length hsince]
        exact hcovers.mono hfront
      · rw [take_eq_take hfront hle, hresult]
  | becameLeader node term => trivial
  | readAnswered node readID value => trivial
  | readRejected node readID => trivial

theorem Awaits.mono {trace : List Observation} (shown : List Observation) {T index since : Nat}
    (hsince : since ≤ trace.length) (h : Awaits config σ trace T index since) :
    Awaits config σ' (trace ++ shown) T index since := by
  rcases h with hcovers | ⟨Q, hQ, hleft⟩
  · refine .inl ?_
    rw [List.take_append_of_le_length hsince]
    exact hcovers.mono hacts.history.chosen_le
  · refine .inr ⟨Q, hQ, fun f hf => ?_⟩
    obtain ⟨hterm, hack⟩ := hleft f hf
    exact ⟨hterm.trans_le (hacts.history.term_le f), by rwa [hacts.frozen f T hterm]⟩

omit hacts in
theorem Serves.longer (hrefl : Acts config id σ σ) {trace : List Observation}
    (shown : List Observation) {disk : Disk} {files : List Snapshot.State} {p : Process}
    (h : Serves config guarded prompt σ ρ trace id disk files p) :
    Serves config guarded prompt σ ρ (trace ++ shown) id disk files p :=
  { h with
    awaiting := fun hguarded hprompt index waiter hmem =>
      (h.awaiting hguarded hprompt index waiter hmem).mono hrefl shown
        (h.arrived index waiter hmem)
    stamped := fun readID since hmem => by
      rw [List.length_append]
      exact (h.stamped readID since hmem).trans (Nat.le_add_right _ _)
    arrived := fun index waiter hmem => by
      rw [List.length_append]
      exact (h.arrived index waiter hmem).trans (Nat.le_add_right _ _)
    since := fun hguarded read hread since hmem round hround => by
      rw [List.take_append_of_le_length (h.stamped _ _ hmem)]
      exact h.since hguarded read hread since hmem round hround }

/-! ## Other nodes -/

section Others

variable {g : NodeID} (hg : g ≠ id)

include hg

theorem Stored.other {files : List Snapshot.State} {disk : Disk}
    (h : Stored guarded σ g files disk) : Stored guarded σ' g files disk := by
  refine ⟨?_, ?_, h.base_le, ?_, ?_, ?_, h.filed, ?_⟩
  all_goals simp only [hacts.term_eq g hg, hacts.log_eq g hg, hacts.vote_eq g hg]
  · exact h.term_eq
  · exact h.vote_eq
  · exact h.commit_le
  · exact h.baseTerm
  · exact h.log_eq
  · exact fun hguarded => (h.known hguarded).extend hacts.history

theorem AtRest.other {files : List Snapshot.State} {disk : Disk} {n : Node}
    (h : AtRest config σ g files disk n) : AtRest config σ' g files disk n :=
  { h with
    holds := by rw [hacts.log_eq g hg]; exact h.holds
    term_eq := by rw [hacts.term_eq g hg]; exact h.term_eq }

theorem Campaigns.other {n : Node} (h : Campaigns config σ g n) : Campaigns config σ' g n where
  votes f hf := ⟨(h.votes f hf).1, hacts.history.vote_eq _ _ _ (h.votes f hf).2⟩
  own := hacts.history.vote_eq _ _ _ h.own
  cand := by rw [hacts.history.cand_eq _ _ h.own, hacts.log_eq g hg, h.cand]
  fresh := fun hlead => h.fresh (hacts.lead_new _ g hg hlead)

theorem Leads.other {n : Node} (h : Leads σ g n) : Leads σ' g n := by
  have hllog := hacts.llog_eq _ g hg h.leads
  exact ⟨hacts.history.lead_eq _ _ h.leads, by rw [hacts.log_eq g hg, hllog, h.holds],
    by rw [hllog, h.last]⟩

theorem Replicates.other (hgrows : Rounds.Grows σ id ρ ρ') {n : Node} (hleads : Leads σ g n)
    (hholds : n.Holds (σ.log g)) (h : Replicates config σ ρ g n) :
    Replicates config σ' ρ' g n := by
  have hllog := hacts.llog_eq _ g hg hleads.leads
  have hlcommit := hacts.lcommit_eq _ g hg hleads.leads
  have hlast : n.lastLogIndex = (σ.llog n.term).length := by
    rw [hholds.lastIndex, hleads.holds]
  have hbase : n.logBaseIndex ≤ (σ.llog n.term).length := by
    rw [← hleads.holds]
    exact hholds.base_le
  refine ⟨?_, fun f => (h.matched f).trans (hacts.history.ack_le _ _), fun f => ?_,
    fun f hf => (h.snapshot f hf).imp_right fun hoffers => hacts.offers hoffers hbase hbase,
    by rw [hlcommit]; exact h.commit_ge, fun hready => by rw [hlcommit]; exact h.ready hready,
    fun read hread => ?_⟩
  · rw [hllog]
    exact h.own.trans (hacts.history.ack_le _ _)
  · refine hacts.offers (h.next f) ?_ ?_
    · rw [← hlast, nextFor]
      split <;> omega
    · rw [← hlast]
      exact min_le_right _ _
  · obtain ⟨hpositive, hmembers, round, hround, hreached⟩ := h.reads read hread
    exact ⟨hpositive, hmembers, round, hgrows.keeps _ _ _ hround, hreached⟩

theorem Captures.other {disk : Disk} {files : List Snapshot.State} {capture : Capture}
    (h : Captures config guarded σ g disk files capture) :
    Captures config guarded σ' g disk files capture :=
  ⟨by rw [hacts.log_eq g hg]; exact h.position, h.saved, h.owned.mono hacts⟩

theorem Waits.other {T applied index : Nat} {request : Request}
    (h : Waits σ g T applied index request) : Waits σ' g T applied index request := by
  refine ⟨?_, ?_, h.later⟩
  · rw [hacts.log_eq g hg]
    exact h.carries
  · rw [hacts.log_eq g hg]
    exact h.own

theorem Serves.other (hgrows : Rounds.Grows σ id ρ ρ') {trace : List Observation}
    (shown : List Observation) {disk : Disk} {files : List Snapshot.State} {p : Process}
    (hagreed : σ.Agreed) (hstored : Stored guarded σ g files disk)
    (h : Serves config guarded prompt σ ρ trace g disk files p) :
    Serves config guarded prompt σ' ρ' (trace ++ shown) g disk files p where
  member := h.member
  rest := h.rest.other hacts hg
  campaigns hrole := (h.campaigns hrole).other hacts hg
  leads hrole := (h.leads hrole).other hacts hg
  replicates hguarded hrole :=
    (h.replicates hguarded hrole).other hacts hg hgrows (h.leads hrole) h.rest.holds
  idle := h.idle
  sessions hguarded := by
    have hle := (h.rest.applied_le.trans h.rest.commit_eq.le).trans
      (hstored.commit_le_chosen hagreed hguarded)
    rw [take_eq_take hacts.history.chosen_le hle]
    exact h.sessions hguarded
  waiting hguarded index waiter hmem := (h.waiting hguarded index waiter hmem).other hacts hg
  awaiting hguarded hprompt index waiter hmem :=
    (h.awaiting hguarded hprompt index waiter hmem).mono hacts shown (h.arrived index waiter hmem)
  inFlight hguarded session sequence index hmem :=
    (h.inFlight hguarded session sequence index hmem).other hacts hg
  incoming hguarded receiving hreceiving :=
    (h.incoming hguarded receiving hreceiving).mono hacts.history.chosen_le
  ready := h.ready
  capture capture hcapture := (h.capture capture hcapture).other hacts hg
  begun := h.begun
  asked hguarded hrole := by
    have hlead := (h.leads hrole).leads
    rw [hgrows.others _ (by simp [hlead, hg])]
    exact h.asked hguarded hrole
  stamped readID since hmem := by
    rw [List.length_append]
    exact (h.stamped readID since hmem).trans (Nat.le_add_right _ _)
  arrived index waiter hmem := by
    rw [List.length_append]
    exact (h.arrived index waiter hmem).trans (Nat.le_add_right _ _)
  since hguarded read hread since hmem round hround := by
    have hrole : p.core.role = .leader := by
      by_contra hrole
      simp [(h.idle hrole).1] at hread
    obtain ⟨-, -, old, hold, -⟩ := (h.replicates hguarded hrole).reads read hread
    have hsame : old = round := Option.some.inj ((hgrows.keeps _ _ _ hold).symm.trans hround)
    subst hsame
    rw [List.take_append_of_le_length (h.stamped _ _ hmem)]
    exact (h.since hguarded read hread since hmem old hold).mono hacts.history.chosen_le

theorem Runs.other (hgrows : Rounds.Grows σ id ρ ρ') {trace : List Observation}
    (shown : List Observation) {server : Server} (hagreed : σ.Agreed)
    (h : Runs config guarded prompt σ ρ trace g server) :
    Runs config guarded prompt σ' ρ' (trace ++ shown) g server where
  stored := h.stored.other hacts hg
  owned file hfile := (h.owned file hfile).mono hacts
  serves p hp := (h.serves p hp).other hacts hg hgrows shown hagreed h.stored

end Others

end Acting

end QuorumKV.Cluster
