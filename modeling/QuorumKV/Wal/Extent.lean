import QuorumKV.Wal.Atomic

/-!
# The log reaches the commit index

The log positions of a history, apart from its hard states: Snapshot indexes do not go back,
and reopens come at any time.  A reopen may find a longer log than was closed, when an entry
removed below the Snapshot comes back, but never one that ends before the commit index it
recovers.
-/

namespace QuorumKV.Wal

open Foundation
open QuorumKV.Raft (Bytes)

/-- The files hold records within the WAL's positions that reach its last index. -/
structure Spans (json : CheckpointJSON) (w : WAL) (records : List Record) : Prop where
  stored : Stored json w records
  newest : (newestOf records).snapshotIndex = w.snapshotIndex
  newestCommit : (newestOf records).commitIndex ≤ w.commitIndex
  older : ∀ c, .checkpoint c ∈ records → c.snapshotIndex ≤ w.snapshotIndex
  commits : ∀ index, .commit index ∈ records → index ≤ w.commitIndex
  reaches : ∀ s, w.snapshotIndex ≤ s →
    Reaches s (fun reached => w.lastLogIndex.toNat ≤ reached) s.toNat records
  voted : ∀ h, .hardState h ∈ records → ValidUTF8 h.votedFor
  strings : w.position.ValidStrings

section Calls

variable {json : CheckpointJSON} {w w' : WAL} {records others : List Record}

/-! ## Appending -/

theorem Spans.append (h : Spans json w records) (hextends : w.Extends w' others)
    (hvoted : ValidUTF8 w'.hardState.votedFor) (hstored : Stored json w' (records ++ others)) :
    Spans json w' (records ++ others) where
  stored := hstored
  newest := by rw [newestOf_append_plain hextends.plain, h.newest, hextends.snapshotIndex]
  newestCommit := by
    rw [newestOf_append_plain hextends.plain]
    exact UInt64.le_trans h.newestCommit hextends.commit_le
  older c hc := by
    rcases List.mem_append.mp hc with hold | hnew
    · exact hextends.snapshotIndex ▸ h.older c hold
    · exact absurd rfl (hextends.plain _ hnew c)
  commits index hmem := by
    rcases List.mem_append.mp hmem with hold | hnew
    · exact UInt64.le_trans (h.commits index hold) hextends.commit_le
    · obtain rfl : index = w'.commitIndex := hextends.appended _ hnew
      exact UInt64.le_rfl
  reaches s hs := by
    rw [reaches_append]
    exact (h.reaches s (hextends.snapshotIndex ▸ hs)).mono le_rfl fun last hlast hreached =>
      hextends.reaches s last hlast hreached
  voted state hmem := by
    rcases List.mem_append.mp hmem with hold | hnew
    · exact h.voted state hold
    · obtain rfl : state = w'.hardState := hextends.appended _ hnew
      exact hvoted
  strings := h.strings.congr hextends.identity.symm hvoted

/-! ## Snapshots -/

theorem Spans.installed {c : CompactionCheckpoint} (h : Spans json w records)
    (hnewer : w.snapshotIndex ≤ c.snapshotIndex) (hcommit : w.commitIndex ≤ c.commitIndex)
    (hinstalls : w.Installs json c w') : ∃ records', Spans json w' records' := by
  obtain ⟨hidentity, hhard⟩ := hinstalls.checkpoint
  obtain ⟨blocks, front, rfl, hpaired, hstored⟩ := h.stored.installed
    (h.strings.congr hidentity.symm (hhard ▸ h.strings.votedFor)) hinstalls
  -- A record of the remaining files is one from before or of the transaction.
  have hrecord : ∀ r, r ∈ blockRecords (uncovered c.snapshotIndex blocks) ++
      (front ++ checkpointRecords c) →
      r ∈ blockRecords blocks ++ front ∨ r ∈ checkpointRecords c := by
    intro r hr
    have hmem := mem_uncovered_append hr
    rw [← List.append_assoc] at hmem
    exact List.mem_append.mp hmem
  refine ⟨_, hstored, ?_, ?_, fun other hother => ?_, fun index hmem => ?_,
    fun s hs => hinstalls.reaches hnewer hpaired h.reaches hs, fun state hmem => ?_, ?_⟩
  · rw [newestOf_installed, hinstalls.snapshotIndex]
  · rw [newestOf_installed, hinstalls.commitIndex]
    exact UInt64.le_rfl
  · rw [hinstalls.snapshotIndex]
    rcases hrecord _ hother with hold | hnew
    · exact UInt64.le_trans (h.older other hold) hnewer
    · rcases mem_checkpointRecords hnew with heq | ⟨-, heq⟩
      · cases heq
        exact UInt64.le_rfl
      · cases heq
  · rw [hinstalls.commitIndex]
    rcases hrecord _ hmem with hold | hnew
    · exact UInt64.le_trans (h.commits index hold) hcommit
    · rcases mem_checkpointRecords hnew with heq | ⟨-, heq⟩ <;> cases heq
  · rcases hrecord _ hmem with hold | hnew
    · exact h.voted state hold
    · rcases mem_checkpointRecords hnew with heq | ⟨-, heq⟩ <;> cases heq
  · exact h.strings.congr hinstalls.identity.symm
      (show ValidUTF8 w'.hardState.votedFor from hinstalls.hardState ▸ h.strings.votedFor)

theorem Spans.perform {operation : Operation} (h : Spans json w records)
    (hreopen : ∀ size, operation ≠ .reopen size)
    (hvoted : ∀ state, operation = .saveHardState state → ValidUTF8 state.votedFor)
    (hforward : ∀ index term, operation = .compact index term → w.snapshotIndex ≤ index)
    (hok : w.perform json operation = some w') : ∃ records', Spans json w' records' := by
  have hvotes : ValidUTF8 w'.hardState.votedFor := by
    rcases WAL.perform_hardState hreopen hok with hstate | ⟨-, hsame⟩
    · exact hvoted _ hstate
    · exact hsame ▸ h.strings.votedFor
  cases operation with
  | compact index term =>
      exact h.installed (hforward index term rfl) UInt64.le_rfl
        (WAL.compact_installs (Outcome.succeeded_eq_some.mp hok))
  | installSnapshot index term retain =>
      have hcall := Outcome.succeeded_eq_some.mp hok
      obtain ⟨hzero, hterm, hnewer, -⟩ := WAL.installSnapshot_ok hcall
      have hoffers := WAL.offers_install retain hzero hnewer hterm
      exact h.installed hnewer hoffers.below.commitIndex (WAL.installSnapshot_installs hcall)
  | reopen size => exact absurd rfl (hreopen size)
  | _ => exact ⟨_, h.append (WAL.perform_extends rfl hok) hvotes (h.stored.perform rfl hok)⟩

/-! ## Reopening -/

theorem framed_blocks {blocks : List Block}
    (hwritable : ∀ r ∈ blockRecords blocks, r.Writable json) :
    Framed (blocks.map (Block.segment json)) ((blockRecords blocks).map (Record.toFrame json)) := by
  induction blocks with
  | nil => exact .nil
  | cons block blocks ih =>
      simp only [blockRecords, List.flatMap_cons, List.mem_append] at hwritable
      rw [blockRecords, List.flatMap_cons, List.map_append, List.map_cons, Block.segment,
        ← framedSegment_toFrame]
      refine .cons ?_ (ih fun r hr => hwritable r (.inr hr))
      simp only [List.mem_map]
      rintro f ⟨r, hr, rfl⟩
      exact (hwritable r (.inl hr)).size

theorem visitFrames_accepted {found c : CompactionCheckpoint}
    (hwritable : ∀ r ∈ records, r.Writable json)
    (hvisit : visitFrames (visitCheckpoint json) found (records.map (Record.toFrame json)) =
      .ok c) :
    ∀ r ∈ records, r.CheckpointOK := by
  induction records generalizing found with
  | nil => simp
  | cons record records ih =>
      rw [List.map_cons, visitFrames] at hvisit
      split at hvisit
      · simp at hvisit
      next next hnext =>
        intro r hr
        rcases List.mem_cons.mp hr with rfl | hr
        · cases r with
          | checkpoint other =>
              have hstrings := (hwritable (.checkpoint other) (by simp)).encodable
              rcases visitCheckpoint_ok hnext with ⟨hkind, -⟩ | ⟨hdecoded, hok⟩
              · exact absurd rfl hkind
              · have hsame := (json.unmarshal_marshal other hstrings).symm.trans hdecoded
                rwa [Option.some.inj hsame]
          | _ => trivial
        · exact ih (fun other hother => hwritable other (by simp [hother])) hvisit r hr

theorem Spans.reopen {size : Nat} {recovered : RecoveredState} (h : Spans json w records)
    (hcommitted : w.commitIndex ≤ w.lastLogIndex)
    (hok : openWAL json w.directory w.identity size = .ok (w', recovered)) :
    Spans json w' records ∧ recovered.Usable ∧
      recovered.commitIndex.toNat ≤ recovered.last ∧
      ∃ files active, w' = resumeWAL w.identity size recovered files active := by
  obtain ⟨blocks, hdirectory, hrecords, hwritable⟩ := h.stored.directory
  have haccepted : ∀ r ∈ records, r.CheckpointOK := by
    obtain ⟨-, -, -, ⟨hempty, -⟩ | ⟨files, active, hrecover, -⟩⟩ := openWAL_ok hok
    · simp [WAL.directory] at hempty
    · rw [← hrecords] at hwritable ⊢
      rw [hdirectory] at hrecover
      obtain ⟨-, c, -, hnewest, -⟩ := recoverSegments_usable hrecover
      rw [newestCompactionCheckpoint_eq, visitSegments_framed _ (framed_blocks hwritable)]
        at hnewest
      exact visitFrames_accepted hwritable hnewest
  obtain ⟨hreplay, rfl⟩ := h.stored.reopen haccepted hok
  have hstart := newestOf_usable haccepted
  obtain ⟨husable, hindex, hraised, hcommits, hreached⟩ := Record.replayAll_reach hstart hreplay
  have hsnapshot : recovered.snapshotIndex = w.snapshotIndex := hindex.trans h.newest
  have hcommit := Record.replayAll_commit_le hstart hreplay
    (UInt64.le_iff_toNat_le.mp h.newestCommit)
    fun index hmem => UInt64.le_iff_toNat_le.mp (h.commits index hmem)
  have hfar : w.lastLogIndex.toNat ≤ recovered.last := by
    have hreaches := h.reaches w.snapshotIndex UInt64.le_rfl
    rw [← List.append_nil records] at hreaches
    refine hreaches.after ?_
    rw [← hreached]
    simp only [CompactionCheckpoint.start, RecoveredState.last, h.newest, List.length_nil,
      Nat.add_zero]
  refine ⟨⟨h.stored.congr rfl rfl, h.newest.trans hsnapshot.symm, hraised, fun c hc => ?_,
    hcommits, fun s hs => ?_, h.voted, ?_⟩, husable, ?_, _, _, rfl⟩
  · exact show c.snapshotIndex ≤ recovered.snapshotIndex from hsnapshot ▸ h.older c hc
  · have hs : w.snapshotIndex ≤ s := hsnapshot ▸ hs
    exact reaches_reopen haccepted hreplay h.newest h.older (h.reaches s hs) hs
  · refine h.strings.congr rfl (show ValidUTF8 recovered.hardState.votedFor from ?_)
    rw [replayAll_hardState hreplay]
    exact foldl_hardStep_voted (newestOf_voted hwritable) h.voted
  · rw [UInt64.le_iff_toNat_le] at hcommitted
    omega

end Calls

theorem spans_initial {json : CheckpointJSON} {w : WAL} {identity : Identity} {size : Nat}
    {fresh : RecoveredState}
    (hstrings : ValidUTF8 identity.clusterID ∧ ValidUTF8 identity.nodeID)
    (hopen : openWAL json [] identity size = .ok (w, fresh)) : ∃ records, Spans json w records := by
  have hrep : Represents json True w (Trace.initial identity) _ :=
    represents_initial hstrings hopen
  have hagrees := hrep.agrees
  have hcommit : w.commitIndex = 0 := hagrees.commitIndex
  exact ⟨_, hrep.stored, hagrees.snapshotIndex.symm, hcommit ▸ UInt64.le_rfl, by simp, by simp,
    fun s _ => hrep.reaches_initial s, by simp, hrep.position_strings⟩

end QuorumKV.Wal
